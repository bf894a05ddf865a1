/-
  Turned copies — what changes in a reduction when broken copies are read the other way round.

  In which direction a broken copy is traversed is a choice.  To turn some of the copies is to turn
  their entries in the gather table, and with them the rows and columns of the element matrices and
  the rows of the coupling blocks that belong to them.

  1. **Copies (`among_turn`)** — the copies that stand for their local degrees of freedom are the
     same ones, turned.

  2. **Elements (`turned_of_holds`)** — patching does not see a turn, and the inverse of a turned
     matrix is the turned inverse.

  3. **Coupling (`Coupling.Turned.assemble_eq`)** — a presolved block is turned in its rows, like the
     block itself.  Products of the two sum over these rows, so every sign meets itself: the face
     graph, and with it the assembled matrix, is the same.

  4. **The way there and back (`Reduction.Turned.reduce_eq`, `recover_eq`)** — the broken load, what
     the faces do to the elements, and the solved vector are turned; local values are not.
-/
import Condensation.Proofs.InterfaceForm

namespace Condensation

variable {S : Type}

open Matrix

/-! ## Orientations -/

namespace Orientation

/-- An orientation, seen against another one. -/
def against : Orientation → Orientation → Orientation
  | plus, o => o
  | minus, plus => minus
  | minus, minus => plus

theorem factor_against [Ring S] (o o' : Orientation) :
    ((o.against o').factor : S) = o.factor * o'.factor := by
  cases o <;> cases o' <;> simp [against, factor]

end Orientation

/-- The target, read against an orientation. -/
def Signed.turn {ι : Type} (o : Orientation) (g : Signed ι) : Signed ι :=
  ⟨g.index, o.against g.orientation⟩

theorem Signed.read_turn {ι : Type} [Ring S] (o : Orientation) (g : Signed ι) (v : ι → S) :
    (g.turn o).read v = o.factor * g.read v := by
  rw [Signed.read, Signed.read, turn, Orientation.factor_against, mul_assoc]

/-- A gather table with some entries turned. -/
def turnedTable {K L : Nat} (gather : Vector (Signed (Fin L)) K) (turned : Fin K → Orientation) :
    Vector (Signed (Fin L)) K :=
  .ofFn fun k => (gather.get k).turn (turned k)

@[simp] theorem get_turnedTable {K L : Nat} (gather : Vector (Signed (Fin L)) K)
    (turned : Fin K → Orientation) (k : Fin K) :
    (turnedTable gather turned).get k = (gather.get k).turn (turned k) :=
  Vector.get_ofFn_eq _ k

/-! ## Copies -/

namespace FirstCopies

variable {K L : Nat}

/-- The chosen pairs, turned. -/
def turn (c : FirstCopies K L) (turned : Fin K → Orientation) : FirstCopies K L where
  toLocal := .ofFn fun k => (c.toLocal.get k).map (Signed.turn (turned k))
  toBroken := .ofFn fun l => (c.toBroken.get l).map fun g => g.turn (turned g.index)

theorem takeUp_turn (gather : Vector (Signed (Fin L)) K) (turned : Fin K → Orientation)
    (c : FirstCopies K L) (k : Fin K) :
    takeUp (turnedTable gather turned) (c.turn turned) k = (takeUp gather c k).turn turned := by
  have hsame : ((c.turn turned).toBroken.get (gather.get k).index).isNone =
      (c.toBroken.get (gather.get k).index).isNone := by
    rw [turn, Vector.get_ofFn_eq, Option.isNone_map]
  unfold takeUp
  rw [get_turnedTable]
  show (if ((c.turn turned).toBroken.get (gather.get k).index).isNone = true then _ else _) = _
  by_cases hnew : (c.toBroken.get (gather.get k).index).isNone = true
  · rw [if_pos (hsame.trans hnew), if_pos hnew]
    unfold turn
    congr 1
    · refine Vector.ext_get fun k' => ?_
      by_cases hk : k = k'
      · subst hk
        simp
      · simp [Vector.get_put_of_ne _ _ hk]
    · refine Vector.ext_get fun l => ?_
      by_cases hl : (gather.get k).index = l
      · subst hl
        simp [Signed.turn]
      · simp only [Signed.turn]
        rw [Vector.get_put_of_ne _ _ hl, Vector.get_ofFn_eq, Vector.get_ofFn_eq,
          Vector.get_put_of_ne _ _ hl]
  · have hold : ¬ ((c.turn turned).toBroken.get (gather.get k).index).isNone = true := by
      rw [hsame]
      exact hnew
    rw [if_neg hold, if_neg hnew]

/-- **Copies**: turning does not change which copies are chosen. -/
theorem among_turn (gather : Vector (Signed (Fin L)) K) (turned : Fin K → Orientation) :
    among (turnedTable gather turned) = (among gather).turn turned := by
  have all : ∀ (items : List (Fin K)) (c : FirstCopies K L),
      items.foldl (takeUp (turnedTable gather turned)) (c.turn turned) =
        (items.foldl (takeUp gather) c).turn turned := by
    intro items
    induction items with
    | nil => exact fun c => rfl
    | cons k rest ih =>
      intro c
      rw [List.foldl_cons, List.foldl_cons, takeUp_turn]
      exact ih _
  have hstart : (start : FirstCopies K L).turn turned = start := by
    unfold turn start
    congr 1 <;> exact Vector.ext_get fun i => by simp
  have h := all (List.finRange K) start
  rwa [hstart] at h

end FirstCopies

/-! ## Elements -/

/-- The signs of some orientations. -/
def signs [One S] [Neg S] {k : Nat} (turned : Fin k → Orientation) : Fin k → S :=
  fun i => (turned i).factor

section Signs

variable [CommRing S] {k : Nat} (turned : Fin k → Orientation)

theorem diagonal_signs_mul_self :
    diagonal (signs turned : Fin k → S) * diagonal (signs turned) = 1 := by
  rw [diagonal_mul_diagonal, ← diagonal_one]
  exact congrArg diagonal (funext fun i => (turned i).factor_mul_self)

theorem inv_diagonal_signs :
    (diagonal (signs turned : Fin k → S))⁻¹ = diagonal (signs turned) :=
  Matrix.inv_eq_left_inv (diagonal_signs_mul_self turned)

/-- A turned matrix is singular just if the matrix is. -/
theorem det_turned (A : Matrix (Fin k) (Fin k) S) :
    (diagonal (signs turned) * A * diagonal (signs turned)).det = A.det := by
  have hone : (diagonal (signs turned : Fin k → S)).det * (diagonal (signs turned)).det = 1 := by
    rw [← det_mul, diagonal_signs_mul_self, det_one]
  rw [det_mul, det_mul]
  calc (diagonal (signs turned)).det * A.det * (diagonal (signs turned)).det
      = A.det * ((diagonal (signs turned)).det * (diagonal (signs turned)).det) := by ring
    _ = A.det := by rw [hone, mul_one]

/-- The inverse of a turned matrix is the turned inverse. -/
theorem inv_turned (A : Matrix (Fin k) (Fin k) S) :
    (diagonal (signs turned) * A * diagonal (signs turned))⁻¹ =
      diagonal (signs turned) * A⁻¹ * diagonal (signs turned) := by
  rw [Matrix.mul_inv_rev, Matrix.mul_inv_rev, inv_diagonal_signs, Matrix.mul_assoc]

end Signs

namespace Dense

variable {m : Nat}

/-- The matrix with some rows and the columns of the same numbers turned. -/
def turn [One S] [Neg S] [Mul S] (turned : Fin m → Orientation) (a : Dense S m m) : Dense S m m :=
  .ofFn fun i j => (turned i).factor * a.entry i j * (turned j).factor

variable [CommRing S]

theorem toMatrix_turn (turned : Fin m → Orientation) (a : Dense S m m) :
    (a.turn turned).toMatrix = diagonal (signs turned) * a.toMatrix * diagonal (signs turned) := by
  refine Matrix.ext fun i j => ?_
  rw [mul_diagonal, diagonal_mul]
  simp [turn, signs]

/-- Rows and columns of the identity stay what they are. -/
theorem patch_turn (turned : Fin m → Orientation) (a : Dense S m m) (marked : Vector Bool m) :
    (a.turn turned).patch marked = (a.patch marked).turn turned := by
  refine ext_entry fun i j => ?_
  rw [patch, entry_ofFn, turn, turn, entry_ofFn, entry_ofFn, patch, entry_ofFn]
  by_cases hmarked : (marked.get i || marked.get j) = true
  · rw [if_pos hmarked, if_pos hmarked]
    by_cases hij : i = j
    · subst hij
      simp
    · simp [hij]
  · rw [if_neg hmarked, if_neg hmarked]

end Dense

namespace ElementStore

variable {ne m : Nat} {turned : Fin (ne * m) → Orientation}

/-- The orientations of the copies in one element. -/
def turnedIn (turned : Fin (ne * m) → Orientation) (e : Fin ne) : Fin m → Orientation :=
  fun i => turned (Pairing.join e i)

variable [Field S] [LinearOrder S]

/-- Both stores were built from matrices, for the same elements, and solve alike up to the turn. -/
structure Turned (turned : Fin (ne * m) → Orientation) (store store' : ElementStore S ne m) :
    Prop where
  built : store.Built
  built' : store'.Built
  assembled : ∀ e, (store'.slots.get e).assembled = (store.slots.get e).assembled
  inverse : ∀ e, (store'.slots.get e).inverse = diagonal (signs (turnedIn turned e)) *
    (store.slots.get e).inverse * diagonal (signs (turnedIn turned e))

/-- **Elements** with turned matrices solve alike up to the turn. -/
theorem turned_of_holds [IsStrictOrderedRing S] {store store' : ElementStore S ne m}
    {given : Fin ne → Option (Dense S m m)} {marked : Vector Bool (ne * m)}
    (h : store.Holds given marked)
    (h' : store'.Holds (fun e => (given e).map (Dense.turn (turnedIn turned e))) marked)
    (hdet : ∀ e a, given e = some a → (a.patch (Pairing.part marked e)).toMatrix.det ≠ 0) :
    Turned turned store store' := by
  refine ⟨h.built, h'.built, fun e => ?_, fun e => ?_⟩
  · cases he : given e with
    | some a => rw [h.slot_some he, h'.slot_some (congrArg _ he)]; rfl
    | none => rw [h.slot_none he, h'.slot_none (congrArg _ he)]
  · cases he : given e with
    | some a =>
      have hmatrix : ((a.turn (turnedIn turned e)).patch (Pairing.part marked e)).toMatrix =
          diagonal (signs (turnedIn turned e)) * (a.patch (Pairing.part marked e)).toMatrix *
            diagonal (signs (turnedIn turned e)) := by
        rw [Dense.patch_turn, Dense.toMatrix_turn]
      have hdet' : ((a.turn (turnedIn turned e)).patch (Pairing.part marked e)).toMatrix.det ≠ 0 := by
        rw [hmatrix, det_turned]
        exact hdet e a he
      rw [inverse_of_some h he (hdet e a he), inverse_of_some h' (congrArg _ he) hdet', hmatrix,
        inv_turned]
    | none =>
      rw [inverse_of_none h he, inverse_of_none h' (congrArg _ he), Matrix.mul_zero, Matrix.zero_mul]

namespace Turned

variable {store store' : ElementStore S ne m}

theorem missing_eq (h : Turned turned store store') : store'.missing = store.missing := by
  unfold missing
  simp only [h.assembled]

/-- In one element: what a turned vector is solved to is turned. -/
theorem inverse_entry (h : Turned turned store store') (e : Fin ne) (i q : Fin m) :
    (store'.slots.get e).inverse i q = signs turned (Pairing.join e i) *
      (store.slots.get e).inverse i q * signs turned (Pairing.join e q) := by
  rw [h.inverse, mul_diagonal, diagonal_mul]
  rfl

/-- A turned vector is solved to the turned solution. -/
theorem inverse_mulVec (h : Turned turned store store') (x : Fin (ne * m) → S) :
    store'.inverse *ᵥ (signs turned * x) = signs turned * (store.inverse *ᵥ x) := by
  funext k
  have hself : ∀ l : Fin (ne * m), (signs turned l : S) * signs turned l = 1 :=
    fun l => (turned l).factor_mul_self
  rw [Pi.mul_apply, ElementStore.inverse, ElementStore.inverse, blocks_mulVec, blocks_mulVec]
  simp only [Matrix.mulVec, dotProduct, h.inverse_entry, Pairing.join_split, Pi.mul_apply,
    Finset.mul_sum]
  refine Finset.sum_congr rfl fun j _ => ?_
  calc signs turned k * (store.slots.get (Pairing.outer k)).inverse (Pairing.inner k) j *
        signs turned (Pairing.join (Pairing.outer k) j) *
          (signs turned (Pairing.join (Pairing.outer k) j) *
            x (Pairing.join (Pairing.outer k) j))
      = signs turned k * ((store.slots.get (Pairing.outer k)).inverse (Pairing.inner k) j *
          ((signs turned (Pairing.join (Pairing.outer k) j) *
            signs turned (Pairing.join (Pairing.outer k) j)) *
              x (Pairing.join (Pairing.outer k) j))) := by ring
    _ = _ := by rw [hself, one_mul]

end Turned

end ElementStore

/-! ## Coupling -/

namespace Coupling

variable {disc : Discretization S} {turned : Fin disc.numBroken → Orientation}

/-- The blocks of `c'` are those of `c`, with turned rows. -/
def Turned [One S] [Neg S] [Mul S] (turned : Fin disc.numBroken → Orientation)
    (c c' : Coupling disc) : Prop :=
  ∀ (side : Slot disc.ne disc.fpe) (i : Fin disc.m) (j : Fin disc.n),
    (c'.block side).entry i j = signs turned (Pairing.join side.element i) * (c.block side).entry i j

section Links

variable [CommRing S] {c c' presolved presolved' : Coupling disc}

/-- In a product of two blocks of one element every sign meets itself. -/
theorem Turned.addTransposeProduct_eq (h : Turned turned c c') (hp : Turned turned presolved presolved')
    {side other : Slot disc.ne disc.fpe} (he : other.element = side.element)
    (b : Dense S disc.n disc.n) :
    (c'.block side).addTransposeProduct (presolved'.block other) b =
      (c.block side).addTransposeProduct (presolved.block other) b := by
  refine Dense.ext_entry fun i j => ?_
  rw [Dense.entry_addTransposeProduct, Dense.entry_addTransposeProduct]
  congr 1
  refine Finset.sum_congr rfl fun p _ => ?_
  have hself : (signs turned (Pairing.join side.element p) : S) *
      signs turned (Pairing.join side.element p) = 1 := Orientation.factor_mul_self _
  rw [h side p i, hp other p j, he]
  calc signs turned (Pairing.join side.element p) * (c.block side).entry p i *
        (signs turned (Pairing.join side.element p) * (presolved.block other).entry p j)
      = (signs turned (Pairing.join side.element p) * signs turned (Pairing.join side.element p)) *
          ((c.block side).entry p i * (presolved.block other).entry p j) := by ring
    _ = _ := by rw [hself, one_mul]

/-- One side of a face is linked alike. -/
theorem Turned.linkSide_eq {places : Nat} (h : Turned turned c c')
    (hp : Turned turned presolved presolved') (links : FaceLinks S disc.nf disc.n places)
    (side : Slot disc.ne disc.fpe) :
    linkSide c' presolved' links side = linkSide c presolved links side := by
  have all : ∀ (others : List (Slot disc.ne disc.fpe × Fin disc.nf)),
      (∀ other ∈ others, other.1.element = side.element) →
      ∀ links : FaceLinks S disc.nf disc.n places,
        others.foldlM (fun links other =>
          links.link other.2 (c'.block side) (presolved'.block other.1)) links =
        others.foldlM (fun links other =>
          links.link other.2 (c.block side) (presolved.block other.1)) links := by
    intro others
    induction others with
    | nil =>
      intro _ links
      rw [List.foldlM_nil, List.foldlM_nil]
    | cons other rest ih =>
      intro helement links
      have hlink : links.link other.2 (c'.block side) (presolved'.block other.1) =
          links.link other.2 (c.block side) (presolved.block other.1) := by
        unfold FaceLinks.link
        simp only [h.addTransposeProduct_eq hp (helement other (by simp))]
      rw [List.foldlM_cons, List.foldlM_cons, hlink]
      exact bind_congr fun next => ih (fun other' h' => helement other' (by simp [h'])) next
  exact all _ (fun other hother => (mem_facesOf.1 hother).1) links

/-- So is the face. -/
theorem Turned.linksOf_eq {places : Nat} (h : Turned turned c c')
    (hp : Turned turned presolved presolved') (f : Fin disc.nf) :
    (linksOf c' presolved' f : Option (FaceLinks S disc.nf disc.n places)) =
      linksOf c presolved f := by
  unfold linksOf
  congr 1
  funext links side
  exact h.linkSide_eq hp links side

/-- And so are all faces. -/
theorem Turned.faceGraph_eq (h : Turned turned c c') (hp : Turned turned presolved presolved')
    (s : Schedule) : c'.faceGraph s presolved' = c.faceGraph s presolved := by
  unfold faceGraph
  simp only [h.linksOf_eq hp]

end Links

section Assembly

variable [Field S] [LinearOrder S] {c c' : Coupling disc}
  {store store' : ElementStore S disc.ne disc.m}

/-- Presolved blocks are turned like the blocks. -/
theorem Turned.presolve (h : Turned turned c c') (hstore : store.Turned turned store')
    (s : Schedule) :
    ∃ presolved presolved', c.presolve s store = .ok presolved ∧
      c'.presolve s store' = .ok presolved' ∧ Turned turned presolved presolved' := by
  obtain ⟨presolved, hpresolved, hentry⟩ := c.presolve_returns s hstore.built
  obtain ⟨presolved', hpresolved', hentry'⟩ := c'.presolve_returns s hstore.built'
  refine ⟨presolved, presolved', hpresolved, hpresolved', fun side i j => ?_⟩
  rw [hentry, hentry', Finset.mul_sum]
  refine Finset.sum_congr rfl fun q _ => ?_
  have hself : (signs turned (Pairing.join side.element q) : S) *
      signs turned (Pairing.join side.element q) = 1 := Orientation.factor_mul_self _
  rw [hstore.inverse_entry, h side q j]
  calc signs turned (Pairing.join side.element i) * (store.slots.get side.element).inverse i q *
        signs turned (Pairing.join side.element q) *
          (signs turned (Pairing.join side.element q) * (c.block side).entry q j)
      = signs turned (Pairing.join side.element i) *
          ((store.slots.get side.element).inverse i q *
            ((signs turned (Pairing.join side.element q) *
              signs turned (Pairing.join side.element q)) * (c.block side).entry q j)) := by ring
    _ = _ := by rw [hself, one_mul]

/-- **Coupling**: the assembled matrix is the same. -/
theorem Turned.assemble_eq (h : Turned turned c c') (hstore : store.Turned turned store')
    (s : Schedule) : c'.assemble s store' = c.assemble s store := by
  obtain ⟨presolved, presolved', hpresolved, hpresolved', hp⟩ := h.presolve hstore s
  unfold assemble
  rw [hpresolved, hpresolved', Outcome.ok_bind, Outcome.ok_bind, h.faceGraph_eq hp]

end Assembly

/-! ### The jump -/

section Jump

variable [CommRing S] {c c' : Coupling disc}

theorem Turned.faceRow_eq (h : Turned turned c c') (f : Fin disc.nf) (j : Fin disc.n)
    (k : Fin disc.numBroken) : c'.faceRow f j k = signs turned k * c.faceRow f j k := by
  unfold faceRow
  rw [← List.sum_map_mul_left]
  refine congrArg List.sum (List.map_congr_left fun side hside => ?_)
  have he : side.element = Pairing.outer k := by simpa [sidesOn] using (List.mem_filter.1 hside).2
  rw [h, he, Pairing.join_split]

theorem Turned.jumpMatrix_eq (h : Turned turned c c') (r : Fin disc.trace.numLocal)
    (k : Fin disc.numBroken) : c'.jumpMatrix r k = signs turned k * c.jumpMatrix r k := by
  unfold jumpMatrix
  rw [Matrix.of_apply, Matrix.of_apply, ← List.sum_map_mul_left]
  refine congrArg List.sum (List.map_congr_left fun q _ => ?_)
  exact h.faceRow_eq _ _ k

/-- The faces see of a turned vector what they saw of the vector. -/
theorem Turned.jumpMatrix_mulVec (h : Turned turned c c') (x : Fin disc.numBroken → S) :
    c'.jumpMatrix *ᵥ (signs turned * x) = c.jumpMatrix *ᵥ x := by
  funext r
  rw [Matrix.mulVec, Matrix.mulVec, dotProduct, dotProduct]
  refine Finset.sum_congr rfl fun k _ => ?_
  have hself : (signs turned k : S) * signs turned k = 1 := Orientation.factor_mul_self _
  rw [h.jumpMatrix_eq, Pi.mul_apply]
  calc signs turned k * c.jumpMatrix r k * (signs turned k * x k)
      = (signs turned k * signs turned k) * (c.jumpMatrix r k * x k) := by ring
    _ = c.jumpMatrix r k * x k := by rw [hself, one_mul]

/-- What they do to the elements is turned. -/
theorem Turned.jumpMatrix_transpose_mulVec (h : Turned turned c c')
    (v : Fin disc.trace.numLocal → S) :
    c'.jumpMatrixᵀ *ᵥ v = signs turned * (c.jumpMatrixᵀ *ᵥ v) := by
  funext k
  simp only [Matrix.mulVec, dotProduct, Matrix.transpose_apply, Pi.mul_apply, h.jumpMatrix_eq,
    Finset.mul_sum, mul_assoc]

end Jump

end Coupling

/-! ## The way there and back -/

namespace Reduction

variable {disc : Discretization S} {turned : Fin disc.numBroken → Orientation}

section Turned

variable [Field S] [LinearOrder S]

/-- Two reductions of one discretization, the second one with some copies turned. -/
structure Turned (turned : Fin disc.numBroken → Orientation) (red red' : Reduction disc) : Prop where
  essential : red'.essential = red.essential
  copies : red'.copies = red.copies.turn turned
  coupling : Coupling.Turned turned red.coupling red'.coupling
  store : red.store.Turned turned red'.store

variable {red red' : Reduction disc}

theorem Turned.loadOf_eq (h : Turned turned red red') (v : Vector S disc.flux.numLocal) :
    (red'.loadOf v).get = signs turned * (red.loadOf v).get := by
  funext k
  rw [Pi.mul_apply, loadOf, loadOf, Vector.get_ofFn_eq, Vector.get_ofFn_eq, h.copies]
  simp only [FirstCopies.turn, Vector.get_ofFn_eq]
  cases red.copies.toLocal.get k with
  | none => exact (mul_zero _).symm
  | some g => exact Signed.read_turn _ g v.get

/-- **Reducing** gives the same. -/
theorem Turned.reduce_eq (h : Turned turned red red') (s : Schedule) (place : Place)
    (b into : Array S) : red'.reduce s place b into = red.reduce s place b into := by
  have hjump : ∀ v : Vector S disc.flux.numLocal,
      red'.coupling.jumpMatrix *ᵥ (red'.store.inverse *ᵥ (red'.loadOf v).get) =
        red.coupling.jumpMatrix *ᵥ (red.store.inverse *ᵥ (red.loadOf v).get) := by
    intro v
    rw [h.loadOf_eq, h.store.inverse_mulVec, h.coupling.jumpMatrix_mulVec]
  simp only [reduce, breakUpVec_eq, ElementStore.solveVec_eq h.store.built,
    ElementStore.solveVec_eq h.store.built', jumpVec_eq, Vector.ofFn_get, hjump, Program.liftM_eq,
    Program.done_ok_bind]

/-- A turned vector is put together to the same local values. -/
theorem Turned.putTogether_eq (h : Turned turned red red') (s : Schedule)
    (x : Fin disc.numBroken → S) (into : Array S) :
    red'.putTogether s (Vector.ofFn (signs turned * x)).toArray into =
      red.putTogether s (Vector.ofFn x).toArray into := by
  have hlocal : ∀ incoming : Vector S disc.flux.numLocal,
      red'.putTogetherVec s (Vector.ofFn (signs turned * x)) incoming =
        red.putTogetherVec s (Vector.ofFn x) incoming := by
    intro incoming
    rw [putTogetherVec, putTogetherVec, s.each_pure, s.each_pure]
    refine congrArg Outcome.ok (Vector.ext_get fun l => ?_)
    rw [Vector.get_ofFn_eq, Vector.get_ofFn_eq, h.copies, h.essential]
    simp only [FirstCopies.turn, Vector.get_ofFn_eq]
    cases red.copies.toBroken.get l with
    | none => rfl
    | some g =>
      have hself : ((turned g.index).factor : S) * (turned g.index).factor = 1 :=
        Orientation.factor_mul_self _
      have hread : (g.turn (turned g.index)).read (Vector.ofFn (signs turned * x)).get =
          g.read (Vector.ofFn x).get := by
        rw [Signed.read_turn, Signed.read, Signed.read, Vector.ofFn_get, Vector.ofFn_get,
          Pi.mul_apply, signs]
        calc (turned g.index).factor *
              (g.orientation.factor * ((turned g.index).factor * x g.index))
            = ((turned g.index).factor * (turned g.index).factor) *
                (g.orientation.factor * x g.index) := by ring
          _ = g.orientation.factor * x g.index := by rw [hself, one_mul]
      simp only [Option.map_some, hread]
      rfl
  simp only [putTogether, Outcome.sized_toArray, Outcome.ok_bind, hlocal]

/-- **Recovering** gives the same. -/
theorem Turned.recover_eq (h : Turned turned red red') (s : Schedule) (place : Place)
    (b solution into : Array S) :
    red'.recover s place b solution into = red.recover s place b solution into := by
  have hresidual : ∀ (v : Vector S disc.flux.numLocal) (w : Fin disc.trace.numLocal → S),
      masked red'.essential ((red'.loadOf v).get - red'.coupling.jumpMatrixᵀ *ᵥ w) =
        signs turned *
          masked red.essential ((red.loadOf v).get - red.coupling.jumpMatrixᵀ *ᵥ w) := by
    intro v w
    funext k
    rw [h.essential, h.loadOf_eq, h.coupling.jumpMatrix_transpose_mulVec, Pi.mul_apply]
    simp only [masked, Pi.sub_apply, Pi.mul_apply]
    split
    · exact (mul_zero _).symm
    · exact (mul_sub _ _ _).symm
  simp only [recover, breakUpVec_eq, jumpTransposeVec_eq, residual_eq, Vector.ofFn_get, hresidual,
    ElementStore.solveVec_eq h.store.built, ElementStore.solveVec_eq h.store.built',
    h.store.inverse_mulVec, h.putTogether_eq, Program.liftM_eq, Program.done_ok_bind]

end Turned

end Reduction

end Condensation
