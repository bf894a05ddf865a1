/-
  Transposed operators — `C` and `Cᵀ`, and `R` and `Rᵀ`.

  1. **Faces (`jump_transposes`)** — the walk over the faces and the walk over the elements use one
     matrix, so products of the two spaces may be taken on either side.

  2. **Copies (`chosenMatrix`)** — breaking up reads the chosen pairs by their broken numbers, putting
     together by their local ones.  Since the tables are inverse to each other, both walks use one
     matrix again.

  3. **True values (`transposed_values`)** — different owned true values go to different local degrees
     of freedom, and all others get zero.

  4. **The result (`putTogether_breakUp`)** — without essential degrees of freedom `R` is the transpose
     of `Rᵀ` and takes back what it did, but for true values without a broken copy.
-/
import Condensation.Proofs.ChosenCopies
import Condensation.Proofs.OverwrittenValues
import Condensation.Proofs.TurnedCopies

namespace Condensation

variable {S : Type}

open Matrix

/-! ## Faces -/

/-- **Faces**: for any coupling blocks, whether they were cleared or not, and whatever comes in with
    the results, `C` and `Cᵀ` are transposes. -/
theorem Reduction.jump_transposes [CommSemiring S] {disc : Discretization S} (red : Reduction disc)
    (x : Vector S disc.numBroken) (v : Vector S disc.trace.numLocal) :
    ∃ (y : Vector S disc.trace.numLocal) (z : Vector S disc.numBroken),
      (∀ s (into : Vector S disc.trace.numLocal),
        red.jump s x.toArray into.toArray = .ok y.toArray) ∧
      (∀ s (into : Vector S disc.numBroken),
        red.jumpTranspose s v.toArray into.toArray = .ok z.toArray) ∧
      ∑ r, y.get r * v.get r = ∑ k, x.get k * z.get k := by
  refine ⟨.ofFn (red.coupling.jumpMatrix *ᵥ x.get), .ofFn (red.coupling.jumpMatrixᵀ *ᵥ v.get),
    fun s into => red.jump_eq s x into.size_toArray,
    fun s into => red.jumpTranspose_eq s v into.size_toArray, ?_⟩
  simp only [Vector.get_ofFn_eq]
  calc (red.coupling.jumpMatrix *ᵥ x.get) ⬝ᵥ v.get
      = v.get ⬝ᵥ (red.coupling.jumpMatrix *ᵥ x.get) := dotProduct_comm _ _
    _ = x.get ⬝ᵥ (red.coupling.jumpMatrixᵀ *ᵥ v.get) := (dotProduct_transpose_mulVec _ _ _).symm

/-! ## Copies -/

namespace FirstCopies

variable {K L : Nat} {gather : Vector (Signed (Fin L)) K} {c : FirstCopies K L}

/-- The orientations of the chosen pairs, as a matrix. -/
def chosenMatrix [Zero S] [One S] [Neg S] (c : FirstCopies K L) : Matrix (Fin K) (Fin L) S :=
  .of fun k l => match c.toLocal.get k with
    | some g => if g.index = l then g.orientation.factor else 0
    | none => 0

theorem chosenMatrix_of_eq [Zero S] [One S] [Neg S] {k : Fin K} {l : Fin L} {o : Orientation}
    (h : c.toLocal.get k = some ⟨l, o⟩) : c.chosenMatrix k l = (o.factor : S) := by
  simp [chosenMatrix, h]

theorem chosenMatrix_of_ne [Zero S] [One S] [Neg S] {k : Fin K} {l : Fin L}
    (h : ∀ o, c.toLocal.get k ≠ some ⟨l, o⟩) : c.chosenMatrix k l = (0 : S) := by
  simp only [chosenMatrix, Matrix.of_apply]
  split
  · next g hg =>
    refine if_neg fun hl => h g.orientation ?_
    rw [hg, ← hl]
  · rfl

variable [CommRing S]

/-- Of a row or a column with one chosen pair, this pair is read. -/
theorem sum_of_chosen {ι : Type} [Fintype ι] {entry : Option (Signed ι)} {a : ι → S}
    (hchosen : ∀ i o, entry = some ⟨i, o⟩ → a i = o.factor)
    (helse : ∀ i, (∀ o, entry ≠ some ⟨i, o⟩) → a i = 0) (v : ι → S) :
    ∑ i, a i * v i = entry.elim 0 fun g => g.read v := by
  cases entry with
  | none => exact Finset.sum_eq_zero fun i _ => by rw [helse i nofun, zero_mul]
  | some g =>
    have hother : ∀ i, i ≠ g.index → a i * v i = 0 := by
      intro i hi
      rw [helse i fun o e => hi (congrArg Signed.index (Option.some.inj e)).symm, zero_mul]
    rw [Fintype.sum_eq_single g.index hother, hchosen g.index g.orientation rfl]
    rfl

/-- A row of the matrix reads the local degree of freedom that the copy stands for. -/
theorem chosenMatrix_mulVec (c : FirstCopies K L) (v : Fin L → S) (k : Fin K) :
    (c.chosenMatrix *ᵥ v) k = (c.toLocal.get k).elim 0 fun g => g.read v :=
  sum_of_chosen (fun _ _ h => chosenMatrix_of_eq h) (fun _ h => chosenMatrix_of_ne h) v

/-- A column reads the chosen copy of the local degree of freedom. -/
theorem ChoosesFirst.chosenMatrix_transpose_mulVec (h : ChoosesFirst gather c) (x : Fin K → S)
    (l : Fin L) : (c.chosenMatrixᵀ *ᵥ x) l = (c.toBroken.get l).elim 0 fun g => g.read x :=
  sum_of_chosen (fun k o e => chosenMatrix_of_eq ((h.paired k l o).2 e))
    (fun k hno => chosenMatrix_of_ne fun o e => hno o ((h.paired k l o).1 e)) x

end FirstCopies

/-! ## True values -/

namespace TrueDofs

variable {l : Nat} [CommRing S] {link : TrueDofs S l}

/-- Restriction and its transpose. -/
theorem CopiesTrue.sum_restrictTransposeVec (h : link.CopiesTrue) (t : Vector S link.numOwned)
    (w : Vector S l) : ∑ i, (link.restrictTransposeVec t).get i * w.get i =
      ∑ k, t.get k * (link.restrictVec w).get k := by
  rw [link.sum_written]
  refine Finset.sum_congr rfl fun k _ => ?_
  exact if_pos (link.forall_stays_iff.2 h.restriction_injective k)

theorem CopiesTrue.restrictTransposeVec_zero (h : link.CopiesTrue) :
    link.restrictTransposeVec (Vector.replicate _ 0) = Vector.replicate _ 0 := by
  refine Vector.ext_get fun i => ?_
  rw [Vector.get_replicate_eq]
  by_cases hi : ∃ k, (link.restriction.get k).index = i
  · obtain ⟨k, rfl⟩ := hi
    rw [h.get_restrictTransposeVec, Vector.get_replicate_eq, mul_zero]
  · exact link.get_restrictTransposeVec_of_ne _ (not_exists.1 hi)

end TrueDofs

namespace FluxSpace

variable [CommRing S] {ne : Nat} {space : FluxSpace S ne}

theorem localValues_of_link (space : FluxSpace S ne) {link : TrueDofs S space.numLocal}
    (h : space.trueDofs = some link) (t : Vector S link.numOwned) :
    space.localValues t.toArray = .ok (link.restrictTransposeVec t) := by
  simp only [localValues, h, Outcome.sized_toArray, Outcome.ok_bind, Outcome.pure_eq]

/-- **True values**: going to local values and going to true ones are transposes. -/
theorem transposed_values (hcopies : space.Copying) (b : Vector S space.numTrue)
    (w : Vector S space.numLocal) :
    ∃ (v : Vector S space.numLocal) (y : Vector S space.numTrue),
      space.localValues b.toArray = .ok v ∧ space.trueValues w = y.toArray ∧
        ∑ i, v.get i * w.get i = ∑ t, b.get t * y.get t := by
  obtain ⟨m, l, gather, link⟩ := space
  cases link with
  | none => exact ⟨b, w, Outcome.sized_toArray _ b, rfl, rfl⟩
  | some link =>
    change Vector S link.numOwned at b
    exact ⟨link.restrictTransposeVec b, link.restrictVec w,
      localValues_of_link ⟨m, l, gather, some link⟩ rfl b, rfl,
      (hcopies link rfl).sum_restrictTransposeVec b w⟩

/-- Zeros are zeros. -/
theorem localValues_zero (hcopies : space.Copying) :
    space.localValues (Vector.replicate space.numTrue 0).toArray = .ok (Vector.replicate _ 0) := by
  obtain ⟨m, l, gather, link⟩ := space
  cases link with
  | none => exact Outcome.sized_toArray _ (Vector.replicate l 0)
  | some link =>
    have hzero : link.restrictTransposeVec (Vector.replicate _ 0) = Vector.replicate l 0 :=
      (hcopies link rfl).restrictTransposeVec_zero
    rw [← hzero]
    exact localValues_of_link ⟨m, l, gather, some link⟩ rfl (Vector.replicate _ 0)

/-- A true value is what it was if the local one that it is read from is what it became. -/
theorem get_eq_of_trueValues [Nontrivial S] (hcopies : space.Copying) {b y : Vector S space.numTrue}
    {v w : Vector S space.numLocal} (hv : space.localValues b.toArray = .ok v)
    (hy : space.trueValues w = y.toArray) {t : Fin space.numTrue} {k : Fin space.numLocal}
    (hread : space.ReadFrom t k) (h : w.get k = v.get k) : y.get t = b.get t := by
  classical
  have hback := (trueValues_congr hread h).trans (trueValues_of_localValues signLaws hcopies hv hread)
  rw [hy, Vector.getElem?_toArray_get, Vector.getElem?_toArray_get] at hback
  exact Option.some.inj hback

end FluxSpace

/-! ## The result -/

namespace Reduction

variable [Field S] {disc : Discretization S} {red : Reduction disc}

theorem get_loadOf (red : Reduction disc) (v : Vector S disc.flux.numLocal) :
    (red.loadOf v).get = red.copies.chosenMatrix *ᵥ v.get := by
  funext k
  rw [loadOf, Vector.get_ofFn_eq, FirstCopies.chosenMatrix_mulVec]
  cases red.copies.toLocal.get k with
  | none => rfl
  | some g => rfl

theorem get_written_of_chosen (hfree : ∀ k, red.essential.get k = false)
    {l : Fin disc.flux.numLocal} {g : Signed (Fin disc.numBroken)}
    (h : red.copies.toBroken.get l = some g) (x : Vector S disc.numBroken)
    (incoming : Vector S disc.flux.numLocal) :
    (red.written x incoming).get l = g.read x.get := by
  simp only [written, Vector.get_ofFn_eq, h, hfree, Bool.false_eq_true, if_false]

theorem get_written_of_unchosen {l : Fin disc.flux.numLocal}
    (h : red.copies.toBroken.get l = none) (x : Vector S disc.numBroken)
    (incoming : Vector S disc.flux.numLocal) :
    (red.written x incoming).get l = incoming.get l := by
  simp only [written, Vector.get_ofFn_eq, h]

/-- Without essential degrees of freedom, what is put together over zeros is the transpose. -/
theorem get_written_zero (hchosen : FirstCopies.ChoosesFirst disc.flux.gather red.copies)
    (hfree : ∀ k, red.essential.get k = false) (x : Vector S disc.numBroken) :
    (red.written x (Vector.replicate _ 0)).get = red.copies.chosenMatrixᵀ *ᵥ x.get := by
  funext l
  rw [hchosen.chosenMatrix_transpose_mulVec]
  cases h : red.copies.toBroken.get l with
  | none => exact (get_written_of_unchosen h _ _).trans (Vector.get_replicate_eq _ _)
  | some g => exact get_written_of_chosen hfree h _ _

/-- A chosen copy got the value, and gives it back: both ways its orientation is a factor. -/
theorem get_written_loadOf (hchosen : FirstCopies.ChoosesFirst disc.flux.gather red.copies)
    (hfree : ∀ k, red.essential.get k = false) (v incoming : Vector S disc.flux.numLocal)
    {l : Fin disc.flux.numLocal} (hcopy : disc.flux.HasCopy l) :
    (red.written (red.loadOf v) incoming).get l = v.get l := by
  obtain ⟨c, hc⟩ := hcopy
  cases h : red.copies.toBroken.get l with
  | none => exact absurd hc ((hchosen.none_iff l).1 h c)
  | some g =>
    have hback := (hchosen.paired g.index l g.orientation).2 h
    rw [get_written_of_chosen hfree h, Signed.read, loadOf, Vector.get_ofFn_eq, hback]
    show (g.orientation.factor : S) * (g.orientation.factor * v.get l) = _
    rw [← mul_assoc, Orientation.factor_mul_self, one_mul]

/-- What was broken up comes back over anything. -/
theorem putTogether_loadOf (hcopies : disc.flux.Copying)
    (hchosen : FirstCopies.ChoosesFirst disc.flux.gather red.copies)
    (hfree : ∀ k, red.essential.get k = false) {b : Vector S disc.flux.numTrue}
    {v : Vector S disc.flux.numLocal} (hv : disc.flux.localValues b.toArray = .ok v)
    (x : Vector S disc.flux.numTrue) :
    ∃ back : Vector S disc.flux.numTrue,
      (∀ s, red.putTogether s (red.loadOf v).toArray x.toArray = .ok back.toArray) ∧
      ∀ t : Fin disc.flux.numTrue, ∃ k, disc.flux.ReadFrom t k ∧
        (disc.flux.HasCopy k → back.get t = b.get t) ∧
        (¬ disc.flux.HasCopy k → back.get t = x.get t) := by
  obtain ⟨incoming, hincoming⟩ := localValues_returns disc.flux x.size_toArray
  refine ⟨⟨_, disc.flux.size_trueValues (red.written (red.loadOf v) incoming)⟩, fun s =>
    putTogether_eq_ok_iff.2 ⟨_, incoming, Outcome.sized_toArray _ _, hincoming, rfl⟩, fun t => ?_⟩
  obtain ⟨k, hread⟩ := disc.flux.exists_readFrom t.isLt
  refine ⟨k, hread, fun hcopy => ?_, fun hno => ?_⟩
  · exact FluxSpace.get_eq_of_trueValues hcopies hv rfl hread
      (get_written_loadOf hchosen hfree v incoming hcopy)
  · have hunchosen := (hchosen.none_iff k).2 (not_exists.1 hno)
    exact FluxSpace.get_eq_of_trueValues hcopies hincoming rfl hread
      (get_written_of_unchosen hunchosen _ incoming)

/-- Over zeros, putting together is the transpose of breaking up. -/
theorem putTogether_transposes (hcopies : disc.flux.Copying)
    (hchosen : FirstCopies.ChoosesFirst disc.flux.gather red.copies)
    (hfree : ∀ k, red.essential.get k = false) {b : Vector S disc.flux.numTrue}
    {v : Vector S disc.flux.numLocal} (hv : disc.flux.localValues b.toArray = .ok v)
    (xh : Vector S disc.numBroken) :
    ∃ y : Vector S disc.flux.numTrue,
      (∀ s, red.putTogether s xh.toArray (Vector.replicate disc.flux.numTrue 0).toArray =
        .ok y.toArray) ∧
      ∑ k, (red.loadOf v).get k * xh.get k = ∑ t, b.get t * y.get t := by
  let zero : Vector S disc.flux.numLocal := Vector.replicate _ 0
  obtain ⟨v', y, hv', hy, hsum⟩ :=
    FluxSpace.transposed_values hcopies b (red.written xh zero)
  obtain rfl : v' = v := Outcome.ok.inj (hv'.symm.trans hv)
  refine ⟨y, fun s => putTogether_eq_ok_iff.2 ⟨xh, zero, Outcome.sized_toArray _ _,
    FluxSpace.localValues_zero hcopies, hy.symm⟩, ?_⟩
  calc (red.loadOf v').get ⬝ᵥ xh.get
      = xh.get ⬝ᵥ (red.copies.chosenMatrix *ᵥ v'.get) := by rw [get_loadOf, dotProduct_comm]
    _ = v'.get ⬝ᵥ (red.copies.chosenMatrixᵀ *ᵥ xh.get) := (dotProduct_transpose_mulVec _ _ _).symm
    _ = v'.get ⬝ᵥ (red.written xh zero).get := by rw [get_written_zero hchosen hfree]
    _ = ∑ t, b.get t * y.get t := hsum

/-- **The result**: without essential degrees of freedom the tables pair every local degree of freedom
    with the first of its broken copies; what was broken up comes back where there is a copy, over
    anything, and all else stays; and over zeros `R` is the transpose of `Rᵀ`. -/
theorem putTogether_breakUp (red : Reduction disc) (hflux : disc.flux.Conforming)
    (hfirst : red.copies = .among disc.flux.gather) (hfree : ∀ k, red.essential.get k = false) :
    FirstCopies.ChoosesFirst disc.flux.gather red.copies ∧
      ∀ b : Vector S disc.flux.numTrue, ∃ broken : Vector S disc.numBroken,
        (∀ s (into : Vector S disc.numBroken),
          red.breakUp s b.toArray into.toArray = .ok broken.toArray) ∧
        (∀ x : Vector S disc.flux.numTrue, ∃ back : Vector S disc.flux.numTrue,
          (∀ s, red.putTogether s broken.toArray x.toArray = .ok back.toArray) ∧
          ∀ t : Fin disc.flux.numTrue, ∃ k, disc.flux.ReadFrom t k ∧
            (disc.flux.HasCopy k → back.get t = b.get t) ∧
            (¬ disc.flux.HasCopy k → back.get t = x.get t)) ∧
        ∀ xh : Vector S disc.numBroken, ∃ y : Vector S disc.flux.numTrue,
          (∀ s, red.putTogether s xh.toArray (Vector.replicate disc.flux.numTrue 0).toArray =
            .ok y.toArray) ∧
          ∑ k, broken.get k * xh.get k = ∑ t, b.get t * y.get t := by
  have hchosen : FirstCopies.ChoosesFirst disc.flux.gather red.copies :=
    hfirst ▸ FirstCopies.choosesFirst_among _
  refine ⟨hchosen, fun b => ?_⟩
  obtain ⟨v, hv⟩ := localValues_returns disc.flux b.size_toArray
  exact ⟨red.loadOf v, fun s into => red.breakUp_eq s hv into.size_toArray,
    putTogether_loadOf hflux.copying hchosen hfree hv,
    putTogether_transposes hflux.copying hchosen hfree hv⟩

/-! ### A shared and a missing copy -/

/-- Two local degrees of freedom copy the two true ones the other way round. -/
def swappedCopies : Array GatherEntry := #[some ⟨1, .plus⟩, some ⟨0, .minus⟩]

/-- A link that reads the true degrees of freedom from these copies. -/
def swappedLink (P : Csr Rat 2 2) : TrueDofs Rat 2 :=
  ⟨2, 2, 0, P, #v[.minus ⟨1, Nat.one_lt_two⟩, .plus ⟨0, Nat.zero_lt_two⟩], Nat.le_refl 2⟩

theorem swappedLink_conforming :
    ∃ P, TrueDofs.conforming swappedCopies 2 0 2 = .ok (swappedLink P) := by
  have hinside : ∀ t ∈ ([⟨0, 1, 1⟩, ⟨1, 0, -1⟩] : List (Triplet Rat)), t.Inside 2 2 := by decide
  obtain ⟨P, hP, -⟩ := Csr.ofTriplets_returns hinside
  have hprogram : (TrueDofs.conforming swappedCopies 2 0 2 : Outcome (TrueDofs Rat 2)) =
      Csr.ofTriplets 2 2 [⟨0, 1, 1⟩, ⟨1, 0, -1⟩] >>= fun P =>
        TrueDofs.ofProlongation P #[some ⟨1, .minus⟩, some ⟨0, .plus⟩] 0 := rfl
  refine ⟨P, ?_⟩
  rw [hprogram, hP]
  rfl

/-- Both elements see the first local degree of freedom, the first one against its direction; no
    element sees the other one. -/
def sharedCopy (P : Csr Rat 2 2) : Discretization Rat :=
  { twoElements with
    flux := ⟨1, 2, #v[.minus ⟨0, Nat.zero_lt_two⟩, .plus ⟨0, Nat.zero_lt_two⟩],
      some (swappedLink P)⟩ }

/-- Nothing is essential, and there are no matrices. -/
def sharedCopyReduction (P : Csr Rat 2 2) : Reduction (sharedCopy P) where
  essential := Vector.replicate _ false
  copies := .among (sharedCopy P).flux.gather
  coupling := ⟨.ofFn fun _ => .ofFn fun _ _ => 0⟩
  store := ⟨.ofFn fun _ => ⟨.blank, false⟩⟩

/-- So it is where both elements have a copy of true value 1, and none has one of true value 0: the
    first one comes back as it was, the other one stays. -/
theorem putTogether_breakUp_sharedCopy :
    ∃ P, TrueDofs.conforming swappedCopies 2 0 2 = .ok (swappedLink P) ∧
      ∃ broken back : Array Rat,
        (sharedCopyReduction P).breakUp .inOrder #[5, 6] #[1, 1] = .ok broken ∧
          (sharedCopyReduction P).putTogether .backwards broken #[8, 9] = .ok back ∧
          back[0]? = some 8 ∧ back[1]? = some 6 := by
  obtain ⟨P, hP⟩ := swappedLink_conforming
  have hflux : (sharedCopy P).flux.Conforming := by
    intro link hlink
    obtain rfl : swappedLink P = link := Option.some.inj hlink
    exact ⟨swappedCopies, 2, 0, 2, swappedLink P, hP, rfl⟩
  have hfree : ∀ k, (sharedCopyReduction P).essential.get k = false :=
    fun k => Vector.get_replicate_eq false k
  obtain ⟨-, hvalues⟩ := putTogether_breakUp (sharedCopyReduction P) hflux rfl hfree
  obtain ⟨broken, hbroken, hback, -⟩ := hvalues #v[5, 6]
  obtain ⟨back, hput, hread⟩ := hback #v[8, 9]
  refine ⟨P, hP, broken.toArray, back.toArray, hbroken .inOrder #v[1, 1], hput .backwards, ?_, ?_⟩
  · obtain ⟨k, ⟨ht, hk⟩, -, hstays⟩ := hread (0 : Fin 2)
    have hno : ¬ (sharedCopy P).flux.HasCopy k := by
      rintro ⟨c, hc⟩
      have hindex : ((sharedCopy P).flux.gather.get c).index = (0 : Fin 2) := by
        change Fin 2 at c
        fin_cases c <;> rfl
      exact Fin.zero_ne_one ((hindex.symm.trans hc).trans hk.symm)
    exact (Vector.getElem?_toArray_get back (0 : Fin 2)).trans (congrArg some (hstays hno))
  · obtain ⟨k, ⟨ht, hk⟩, hreturns, -⟩ := hread (1 : Fin 2)
    have hcopy : (sharedCopy P).flux.HasCopy k := ⟨(0 : Fin 2), hk⟩
    exact (Vector.getElem?_toArray_get back (1 : Fin 2)).trans (congrArg some (hreturns hcopy))

end Reduction

end Condensation
