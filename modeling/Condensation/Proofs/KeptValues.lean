/-
  Kept values — what a recovery leaves as it came in.

  The incoming true values go to local degrees of freedom, are overwritten there by broken values,
  and are read back.  Whether a true value survives is decided twice: by the list of the rank that
  owns it, and by the mark of the broken copy that would overwrite it.

  1. **The way back (`trueValues_of_localValues`)** — a true value whose local degree of freedom is
     left alone comes back as it was, since its orientation is applied twice.

  2. **One decision (`mem_essential_iff`)** — a true degree of freedom is in the list of its rank
     just if the local one that it is read from is prescribed, so just if the copies of that one
     are marked.

  3. **The result (`recover_keeps`)** — a recovery keeps the listed true values and those without a
     broken copy, and all others do not depend on what came in.
-/
import Condensation.Proofs.CondensedSession
import Condensation.Proofs.PreparedRanks

namespace Condensation

variable {S : Type} {n : Nat}

/-! ## The way back -/

namespace TrueDofs

variable {l : Nat} [One S] [Neg S]

theorem getElem?_restrictVec [Mul S] (link : TrueDofs S l) (v : Vector S l)
    (t : Fin link.numOwned) :
    (link.restrictVec v).toArray[t.val]? = some ((link.restriction.get t).orientation.factor *
      v.get (link.restriction.get t).index) := by
  rw [Vector.getElem?_toArray_get]
  exact congrArg some (Vector.getElem_map (fun g : Signed (Fin l) => g.read v.get) t.isLt)

/-- Copies of different true degrees of freedom are different. -/
theorem CopiesTrue.restriction_injective {link : TrueDofs S l} (h : link.CopiesTrue) :
    Function.Injective fun t => (link.restriction.get t).index := by
  intro t t' heq
  obtain ⟨j, hj, hrow⟩ := h.restricted t
  obtain ⟨j', hj', hrow'⟩ := h.restricted t'
  dsimp only at heq
  rw [heq, hrow'] at hrow
  obtain rfl : j' = j := congrArg Prod.fst (List.head_eq_of_cons_eq hrow)
  apply Fin.ext
  omega

/-- No later true degree of freedom is read from the same local one. -/
def Stays {S : Type} (link : TrueDofs S l) (k : Fin link.numOwned) : Prop :=
  ∀ k', (link.restriction.get k').index = (link.restriction.get k).index → k' ≤ k

instance {S : Type} (link : TrueDofs S l) (k : Fin link.numOwned) : Decidable (link.Stays k) :=
  inferInstanceAs (Decidable (∀ _, _))

/-- An owned true value arrives where it is read from, and stays there if no later one goes there. -/
theorem get_restrictTransposeVec_of_stays [Zero S] [Mul S] {link : TrueDofs S l}
    {k : Fin link.numOwned} (h : link.Stays k) (t : Vector S link.numOwned) :
    (link.restrictTransposeVec t).get (link.restriction.get k).index =
      (link.restriction.get k).orientation.factor * t.get k := by
  -- it is there from step `k` on
  refine foldl_finRange_invariant _ (fun i (v : Vector S l) => k.val < i →
    v.get (link.restriction.get k).index = (link.restriction.get k).orientation.factor * t.get k)
    ?_ ?_ k.isLt
  · intro hk
    exact absurd hk (Nat.not_lt_zero _)
  · intro i v hv hk
    by_cases hik : i = k
    · subst hik
      exact Vector.get_put_self _ _ _
    · have hlt : k < i := lt_of_le_of_ne (Nat.lt_succ_iff.1 hk) (Ne.symm hik)
      have hne : (link.restriction.get i).index ≠ (link.restriction.get k).index :=
        fun e => absurd (h i e) (not_le.2 hlt)
      rw [Vector.get_put_of_ne _ _ hne]
      exact hv hlt

/-- Every owned true value arrives where it is read from. -/
theorem CopiesTrue.get_restrictTransposeVec [Zero S] [Mul S] {link : TrueDofs S l}
    (h : link.CopiesTrue) (t : Vector S link.numOwned) (k : Fin link.numOwned) :
    (link.restrictTransposeVec t).get (link.restriction.get k).index =
      (link.restriction.get k).orientation.factor * t.get k :=
  get_restrictTransposeVec_of_stays (fun _ e => le_of_eq (h.restriction_injective e)) t

end TrueDofs

namespace FluxSpace

variable {ne : Nat}

/-- Owned true degree of freedom `t` is read from the local one with number `k`. -/
def ReadFrom (space : FluxSpace S ne) (t : Nat) (k : Fin space.numLocal) : Prop :=
  match space.trueDofs with
  | some link => ∃ h : t < link.numOwned, (link.restriction.get ⟨t, h⟩).index = k
  | none => k.val = t

/-- Some broken degree of freedom is a copy of the local one with number `k`. -/
def HasCopy (space : FluxSpace S ne) (k : Fin space.numLocal) : Prop :=
  ∃ c, (space.gather.get c).index = k

/-- There is no link, or it was made by `conforming`. -/
def Conforming [Add S] [One S] [Neg S] (space : FluxSpace S ne) : Prop :=
  ∀ link, space.trueDofs = some link →
    ∃ table owned offset global, link.MadeConforming table owned offset global

/-- All local degrees of freedom are signed copies of true ones. -/
def Copying [One S] [Neg S] (space : FluxSpace S ne) : Prop :=
  ∀ link, space.trueDofs = some link → link.CopiesTrue

theorem Conforming.copying [Add S] [One S] [Neg S] {space : FluxSpace S ne}
    (h : space.Conforming) : space.Copying := by
  intro link hlink
  obtain ⟨table, owned, offset, global, hmade⟩ := h link hlink
  exact hmade.copiesTrue

theorem exists_readFrom (space : FluxSpace S ne) {t : Nat} (ht : t < space.numTrue) :
    ∃ k, space.ReadFrom t k := by
  unfold numTrue at ht
  unfold ReadFrom
  cases hlink : space.trueDofs with
  | none =>
    rw [hlink] at ht
    exact ⟨⟨t, ht⟩, rfl⟩
  | some link =>
    rw [hlink] at ht
    exact ⟨_, ht, rfl⟩

variable [One S] [Neg S] [Mul S]

theorem size_trueValues (space : FluxSpace S ne) (v : Vector S space.numLocal) :
    (space.trueValues v).size = space.numTrue := by
  unfold trueValues numTrue
  cases space.trueDofs <;> simp

/-- A true value depends on the local one that it is read from. -/
theorem trueValues_congr {space : FluxSpace S ne} {t : Nat} {k : Fin space.numLocal}
    (hread : space.ReadFrom t k) {v v' : Vector S space.numLocal} (h : v'.get k = v.get k) :
    (space.trueValues v')[t]? = (space.trueValues v)[t]? := by
  unfold ReadFrom at hread
  unfold trueValues
  cases hlink : space.trueDofs with
  | none =>
    rw [hlink] at hread
    subst hread
    show v'.toArray[k.val]? = v.toArray[k.val]?
    rw [Vector.getElem?_toArray_get, Vector.getElem?_toArray_get, h]
  | some link =>
    rw [hlink] at hread
    obtain ⟨ht, rfl⟩ := hread
    show (link.restrictVec v').toArray[t]? = (link.restrictVec v).toArray[t]?
    rw [link.getElem?_restrictVec _ ⟨t, ht⟩, link.getElem?_restrictVec _ ⟨t, ht⟩, h]

variable [Zero S]

theorem size_of_localValues {space : FluxSpace S ne} {b : Array S} {v : Vector S space.numLocal}
    (h : space.localValues b = .ok v) : b.size = space.numTrue := by
  unfold localValues at h
  unfold numTrue
  cases hlink : space.trueDofs with
  | none =>
    simp only [hlink] at h
    rw [← Outcome.sized_eq_ok_iff.1 h]
    simp
  | some link =>
    simp only [hlink] at h
    obtain ⟨t, ht, -⟩ := Outcome.bind_eq_ok_iff.1 h
    rw [← Outcome.sized_eq_ok_iff.1 ht]
    simp

/-- **The way back**: what was left alone comes back as it was. -/
theorem trueValues_of_localValues [BEq S] (laws : SignLaws S) {space : FluxSpace S ne}
    (hcopies : space.Copying) {into : Array S}
    {incoming : Vector S space.numLocal} (h : space.localValues into = .ok incoming) {t : Nat}
    {k : Fin space.numLocal} (hread : space.ReadFrom t k) :
    (space.trueValues incoming)[t]? = into[t]? := by
  unfold ReadFrom at hread
  unfold localValues at h
  unfold trueValues
  cases hlink : space.trueDofs with
  | none =>
    simp only [hlink] at h
    rw [← Outcome.sized_eq_ok_iff.1 h]
  | some link =>
    simp only [hlink] at h hread
    obtain ⟨ht, -⟩ := hread
    obtain ⟨owned, howned, h⟩ := Outcome.bind_eq_ok_iff.1 h
    obtain rfl := Outcome.ok.inj h
    rw [← Outcome.sized_eq_ok_iff.1 howned]
    show (link.restrictVec (link.restrictTransposeVec owned)).toArray[t]? = owned.toArray[t]?
    rw [link.getElem?_restrictVec _ ⟨t, ht⟩, (hcopies link hlink).get_restrictTransposeVec,
      laws.twice]
    exact (Vector.getElem?_toArray_get owned ⟨t, ht⟩).symm

end FluxSpace

/-! ## One decision -/

section Decision

variable [Zero S] [One S] [Neg S] [Mul S] [BEq S] {ne : Fin n → Nat}
  {flux : ∀ r, FluxSpace S (ne r)} {essential : Fin n → List Nat} {s : Fin n → Schedule}
  {marked : ∀ r, Vector Bool (ne r * (flux r).dofsPerElement)}

/-- **One decision**: the lists of the owners and the prescribed degrees of freedom agree. -/
theorem Classified.mem_essential_iff (h : Classified flux essential s marked) (laws : SignLaws S)
    {r : Fin n} (hcopies : (flux r).Copying) {t : Nat} {k : Fin (flux r).numLocal}
    (hread : (flux r).ReadFrom t k) : t ∈ essential r ↔ Prescribed flux essential r k := by
  unfold FluxSpace.ReadFrom at hread
  cases hlink : (flux r).trueDofs with
  | none =>
    rw [hlink] at hread
    subst hread
    exact (prescribed_none hlink k).symm
  | some link =>
    rw [hlink] at hread
    obtain ⟨ht, rfl⟩ := hread
    obtain ⟨j, hj, hrow⟩ := (hcopies link hlink).restricted ⟨t, ht⟩
    rw [prescribed_some hlink, hrow, ← h.owned r link hlink t ht]
    -- the row has one entry, and that is not zero
    constructor
    · intro hlisted e he _
      rw [List.mem_singleton.1 he, hj]
      exact hlisted
    · intro hall
      have := hall _ (List.mem_singleton_self _) (laws.factor_ne _)
      rwa [hj] at this

end Decision

/-! ## Putting together -/

/-- What a recovery did to the true values of a rank: those that are listed, and those that are read
    from a degree of freedom without a broken copy, came back as they were. -/
structure Keeps {ne : Nat} (space : FluxSpace S ne) (essential : List Nat)
    (into out : Array S) : Prop where
  size_into : into.size = space.numTrue
  size_out : out.size = space.numTrue
  listed : ∀ t ∈ essential, t < space.numTrue ∧ out[t]? = into[t]?
  uncopied : ∀ t k, space.ReadFrom t k → ¬ space.HasCopy k → out[t]? = into[t]?

namespace Reduction

variable {disc : Discretization S}

/-- The chosen copies are the first ones, and the marked ones are those of the listed true degrees
    of freedom. -/
structure Marks (red : Reduction disc) (essential : List Nat) : Prop where
  first : red.copies = .among disc.flux.gather
  inRange : ∀ t ∈ essential, t < disc.flux.numTrue
  marked_iff : ∀ t k, disc.flux.ReadFrom t k → ∀ c, (disc.flux.gather.get c).index = k →
    (red.essential.get c = true ↔ t ∈ essential)

variable [One S] [Neg S] [Mul S]

/-- The local values after the broken ones were put together. -/
def written (red : Reduction disc) (x : Vector S disc.numBroken)
    (incoming : Vector S disc.flux.numLocal) : Vector S disc.flux.numLocal :=
  .ofFn fun l => match red.copies.toBroken.get l with
    | some g => if red.essential.get g.index then incoming.get l else g.read x.get
    | none => incoming.get l

/-- A value stays where every copy is essential. -/
theorem get_written_of_essential {red : Reduction disc}
    (hfirst : red.copies = .among disc.flux.gather) {k : Fin disc.flux.numLocal}
    (h : ∀ c, (disc.flux.gather.get c).index = k → red.essential.get c = true)
    (x : Vector S disc.numBroken) (incoming : Vector S disc.flux.numLocal) :
    (red.written x incoming).get k = incoming.get k := by
  obtain ⟨seen, -, hchosen⟩ := FirstCopies.chosen_among disc.flux.gather
  rw [written, Vector.get_ofFn_eq, hfirst]
  split
  · next g hg =>
    have hcopy := hchosen.toBroken_eq k g hg
    rw [h g.index (by rw [hcopy]), if_pos rfl]
  · rfl

/-- A value does not come from the incoming vector where there is a copy and none is essential. -/
theorem get_written_of_free {red : Reduction disc} (hfirst : red.copies = .among disc.flux.gather)
    {k : Fin disc.flux.numLocal} (hcopy : disc.flux.HasCopy k)
    (h : ∀ c, (disc.flux.gather.get c).index = k → red.essential.get c = false)
    (x : Vector S disc.numBroken) (incoming incoming' : Vector S disc.flux.numLocal) :
    (red.written x incoming').get k = (red.written x incoming).get k := by
  obtain ⟨seen, hall, hchosen⟩ := FirstCopies.chosen_among disc.flux.gather
  obtain ⟨c, rfl⟩ := hcopy
  rw [written, written, Vector.get_ofFn_eq, Vector.get_ofFn_eq, hfirst]
  split
  · next g hg =>
    have hfree := h g.index (by rw [hchosen.toBroken_eq _ g hg])
    simp only [hfree, Bool.false_eq_true, if_false]
  · next hnone => exact absurd hnone (hchosen.found c (hall c))

variable [Zero S]

/-- Putting together succeeds on vectors of the right lengths. -/
theorem putTogether_eq_ok_iff {red : Reduction disc} {s : Schedule} {x into out : Array S} :
    red.putTogether s x into = .ok out ↔ ∃ broken incoming,
      Outcome.sized .brokenVector disc.numBroken x = .ok broken ∧
        disc.flux.localValues into = .ok incoming ∧
        out = disc.flux.trueValues (red.written broken incoming) := by
  have hwritten : ∀ broken incoming,
      red.putTogetherVec s broken incoming = .ok (red.written broken incoming) :=
    fun broken incoming => s.each_pure _ _
  simp only [putTogether, Outcome.bind_eq_ok_iff, hwritten, Outcome.pure_eq, Outcome.ok.injEq]
  constructor
  · rintro ⟨broken, hbroken, incoming, hincoming, _, rfl, rfl⟩
    exact ⟨broken, incoming, hbroken, hincoming, rfl⟩
  · rintro ⟨broken, incoming, hbroken, hincoming, rfl⟩
    exact ⟨broken, hbroken, incoming, hincoming, _, rfl, rfl⟩

/-- Putting together keeps what is listed, and what has no copy. -/
theorem Marks.keeps [BEq S] (laws : SignLaws S) {red : Reduction disc}
    {essential : List Nat} (h : red.Marks essential) (hcopies : disc.flux.Copying) {s : Schedule}
    {x into out : Array S} (hput : red.putTogether s x into = .ok out) :
    Keeps disc.flux essential into out := by
  obtain ⟨broken, incoming, -, hincoming, rfl⟩ := putTogether_eq_ok_iff.1 hput
  have hkept : ∀ t k, disc.flux.ReadFrom t k →
      (∀ c, (disc.flux.gather.get c).index = k → red.essential.get c = true) →
        (disc.flux.trueValues (red.written broken incoming))[t]? = into[t]? := by
    intro t k hread hall
    rw [← FluxSpace.trueValues_of_localValues laws hcopies hincoming hread]
    exact FluxSpace.trueValues_congr hread (get_written_of_essential h.first hall _ _)
  refine ⟨FluxSpace.size_of_localValues hincoming, FluxSpace.size_trueValues _ _, ?_, ?_⟩
  · intro t ht
    obtain ⟨k, hread⟩ := FluxSpace.exists_readFrom _ (h.inRange t ht)
    exact ⟨h.inRange t ht, hkept t k hread fun c hc => (h.marked_iff t k hread c hc).2 ht⟩
  · exact fun t k hread hno => hkept t k hread fun c hc => absurd ⟨c, hc⟩ hno

/-- All else does not depend on the incoming values. -/
theorem Marks.putTogether_other {red : Reduction disc} {essential : List Nat}
    (h : red.Marks essential) {s : Schedule} {x into into' out : Array S}
    (hput : red.putTogether s x into = .ok out) (hsize : into'.size = into.size) :
    ∃ out', red.putTogether s x into' = .ok out' ∧ ∀ t, t ∉ essential →
      (∀ k, disc.flux.ReadFrom t k → disc.flux.HasCopy k) → out'[t]? = out[t]? := by
  obtain ⟨broken, incoming, hbroken, hincoming, rfl⟩ := putTogether_eq_ok_iff.1 hput
  obtain ⟨incoming', hincoming'⟩ :=
    localValues_returns disc.flux (hsize.trans (FluxSpace.size_of_localValues hincoming))
  refine ⟨_, putTogether_eq_ok_iff.2 ⟨broken, incoming', hbroken, hincoming', rfl⟩, ?_⟩
  intro t hunlisted hcopied
  by_cases ht : t < disc.flux.numTrue
  · obtain ⟨k, hread⟩ := FluxSpace.exists_readFrom _ ht
    apply FluxSpace.trueValues_congr hread
    apply get_written_of_free h.first (hcopied k hread)
    intro c hc
    rw [← Bool.not_eq_true, h.marked_iff t k hread c hc]
    exact hunlisted
  · rw [Array.getElem?_eq_none (by rw [FluxSpace.size_trueValues]; omega),
      Array.getElem?_eq_none (by rw [FluxSpace.size_trueValues]; omega)]

variable [Add S] [Sub S] [Div S]

/-- What is put together at the end of a recovery. -/
def brokenSolution (red : Reduction disc) (s : Schedule) (place : Place)
    (b solution : Array S) : Program S (Array S) := do
  Outcome.sameLength .traceSolution disc.trace.numTrue solution.size
  let v ← disc.flux.localValues b
  let load ← red.breakUpVec s v
  let trace ← localTrace disc place solution
  let correction ← red.jumpTransposeVec s trace
  let rest ← red.residual s load correction
  let solved ← red.store.solveVec s rest
  return solved.toArray

/-- The incoming vector comes in at the end only. -/
theorem recover_eq_putTogether (red : Reduction disc) (s : Schedule) (place : Place)
    (b solution into : Array S) :
    red.recover s place b solution into =
      red.brokenSolution s place b solution >>= fun x => .done (red.putTogether s x into) := by
  simp only [recover, brokenSolution, Program.bind_assoc, Program.pure_eq, Program.done_ok_bind,
    Program.liftM_eq]

end Reduction

/-! ## The result -/

namespace Session

/-- The prepared session after some element matrices were taken, finalized or not. -/
def Assembled (ready held : Session S) : Prop :=
  ∃ (red : Reduction ready.disc) (store : ElementStore S ready.disc.ne ready.disc.m)
    (matrix : Option (InterfaceMatrix S)), ready.reduction = some red ∧
      held = ⟨ready.disc, ready.options, ready.essential, some { red with store := store }, matrix⟩

variable [Zero S] [One S] [Mul S] [Neg S] [BEq S]

/-- A reduction that was made from the marks of the classification. -/
theorem marks_of_reductionFrom (laws : SignLaws S) {session : Fin n → Session S}
    {essential : Fin n → List Nat} {s : Fin n → Schedule}
    {marked : ∀ r, Vector Bool (session r).disc.numBroken}
    (h : Classified (fun r => (session r).disc.flux) essential s marked) {r : Fin n}
    (hcopies : (session r).disc.flux.Copying) {options : Options S} {s' : Schedule}
    {faces : FaceBlocks S} {red : Reduction (session r).disc}
    (hred : reductionFrom (session r).disc options s' faces (marked r) = .ok red) :
    red.Marks (essential r) := by
  obtain ⟨hmarked, hfirst, -, -⟩ := of_reductionFrom hred
  refine ⟨hfirst, h.inRange r, ?_⟩
  rintro t k hread c rfl
  rw [h.mem_essential_iff laws hcopies hread, hmarked]
  exact h.marked_iff r c

/-- What ranks that were prepared together hold later marks the copies of what is listed. -/
theorem Assembled.marks [Add S] (laws : SignLaws S) {session ready held : Fin n → Session S}
    (hflux : ∀ r, (session r).disc.flux.Conforming) {s : Fin n → Schedule}
    {faces : Fin n → FaceBlocks S} {essential : Fin n → List Nat}
    (hprepare : Together (fun r : Fin n => ((session r).prepare (s r) ⟨r, n⟩ (faces r)
      (essential r)).rest) fun r => (ready r, ()))
    (hheld : ∀ r, (ready r).Assembled (held r)) (r : Fin n) :
    ∃ (red : Reduction (session r).disc) (matrix : Option (InterfaceMatrix S)),
      red.Marks (essential r) ∧
        held r = ⟨(session r).disc, (session r).options, essential r, some red, matrix⟩ := by
  obtain ⟨marked, made, hclassified, hready⟩ := prepared_together laws hprepare
  obtain ⟨hr, hmade⟩ := hready r
  obtain ⟨hfirst, hrange, hiff⟩ :=
    marks_of_reductionFrom laws hclassified (hflux r).copying hmade
  have hassembled := hheld r
  rw [hr] at hassembled
  obtain ⟨red, store, matrix, hred, heq⟩ := hassembled
  obtain rfl := Option.some.inj hred
  exact ⟨{ made r with store := store }, matrix, ⟨hfirst, hrange, hiff⟩, heq⟩

variable [Add S] [Sub S] [Div S]

/-- **The result**: all ranks are prepared together, get any element matrices, and recover
    together.  What is listed or has no broken copy is kept, and all else would have been the same
    with other incoming values. -/
theorem recover_keeps (laws : SignLaws S) {session ready held : Fin n → Session S}
    (hflux : ∀ r, (session r).disc.flux.Conforming) {s : Fin n → Schedule}
    {faces : Fin n → FaceBlocks S} {essential : Fin n → List Nat}
    (hprepare : Together (fun r : Fin n => ((session r).prepare (s r) ⟨r, n⟩ (faces r)
      (essential r)).rest) fun r => (ready r, ()))
    (hheld : ∀ r, (ready r).Assembled (held r)) {s' : Fin n → Schedule}
    {b solution into out : Fin n → Array S}
    (hrecover : Together (fun r : Fin n =>
      (held r).recover (s' r) ⟨r, n⟩ (b r) (solution r) (into r)) out) :
    (∀ r, Keeps (session r).disc.flux (essential r) (into r) (out r)) ∧
      ∀ into' : Fin n → Array S, (∀ r, (into' r).size = (into r).size) →
        ∃ out', Together (fun r : Fin n =>
            (held r).recover (s' r) ⟨r, n⟩ (b r) (solution r) (into' r)) out' ∧
          ∀ r t, t ∉ essential r →
            (∀ k, (session r).disc.flux.ReadFrom t k → (session r).disc.flux.HasCopy k) →
            (out' r)[t]? = (out r)[t]? := by
  choose red matrix hmarks heq using fun r => Assembled.marks laws hflux hprepare hheld r
  have hprogram : ∀ (into : Fin n → Array S) r,
      (held r).recover (s' r) ⟨r, n⟩ (b r) (solution r) (into r) =
        (red r).brokenSolution (s' r) ⟨r, n⟩ (b r) (solution r) >>= fun x =>
          .done ((red r).putTogether (s' r) x (into r)) := by
    intro into r
    rw [heq, ← Reduction.recover_eq_putTogether]
    rfl
  simp only [hprogram] at hrecover ⊢
  obtain ⟨x, hx, hput⟩ := Together.of_bind_ended hrecover
  constructor
  · exact fun r => (hmarks r).keeps laws (hflux r).copying (hput r)
  · intro into' hsize
    choose out' hput' hother using fun r => (hmarks r).putTogether_other (hput r) (hsize r)
    refine ⟨out', (Together.bind_iff hx).2 ?_, hother⟩
    simp only [hput']
    exact Together.done out'

/-! ### A shared flux -/

/-- Both ranks have one copy of the only true flux, with opposite orientations. -/
def signedCopy (r : Fin 2) : Array GatherEntry :=
  #[some ⟨0, if r.val = 0 then .plus else .minus⟩]

theorem signedCopy_conforms : ∀ r : Fin 2,
    (TrueDofs.conforming (S := Rat) (signedCopy r) (1 - r) r 1).hasValue = true := by
  decide +kernel

/-- The links of the two ranks; rank 0 owns the true flux. -/
def signedLink (r : Fin 2) : TrueDofs Rat 1 :=
  (TrueDofs.conforming (signedCopy r) (1 - r) r 1).value (signedCopy_conforms r)

/-- Two elements on each rank, that see its copy with opposite orientations. -/
def fluxOnRanks (r : Fin 2) : Discretization Rat :=
  { twoElements with
    flux := ⟨1, 1, #v[.plus ⟨0, Nat.zero_lt_one⟩, .minus ⟨0, Nat.zero_lt_one⟩],
      some (signedLink r)⟩ }

/-- Rank 0 lists the true flux. -/
def listedOne (r : Fin 2) : List Nat := if r.val = 0 then [0] else []

/-- A value of the true flux. -/
def valueOnRanks (a : Rat) (r : Fin 2) : Array Rat := if r.val = 0 then #[a] else #[]

theorem numTrue_fluxOnRanks : ∀ r, (fluxOnRanks r).flux.numTrue = 1 - r := by decide +kernel

theorem size_valueOnRanks (a : Rat) (r : Fin 2) :
    (valueOnRanks a r).size = (fluxOnRanks r).flux.numTrue := by
  rw [numTrue_fluxOnRanks]
  fin_cases r <;> rfl

theorem fluxOnRanks_prepared : ∃ ready : Fin 2 → Session Rat, Together (fun r : Fin 2 =>
    ((⟨fluxOnRanks r, {}, [], none, none⟩ : Session Rat).prepare .inOrder ⟨r, 2⟩ oppositeFaces
      (listedOne r)).rest) fun r => (ready r, ()) := by
  obtain ⟨a, ha⟩ := Together.exists_of_values (p := fun r : Fin 2 =>
    ((⟨fluxOnRanks r, {}, [], none, none⟩ : Session Rat).prepare .inOrder ⟨r, 2⟩ oppositeFaces
      (listedOne r)).rest) (by decide +kernel) (by decide +kernel)
  exact ⟨fun r => (a r).1, ha⟩

/-- So it is for two ranks that share one essential flux: its value 7 comes back. -/
theorem recover_keeps_fluxOnRanks :
    ∃ (ready held : Fin 2 → Session Rat) (out : Fin 2 → Array Rat),
      Together (fun r : Fin 2 => ((⟨fluxOnRanks r, {}, [], none, none⟩ : Session Rat).prepare
        .inOrder ⟨r, 2⟩ oppositeFaces (listedOne r)).rest) (fun r => (ready r, ())) ∧
      (∀ r, (ready r).Assembled (held r)) ∧
      Together (fun r : Fin 2 => (held r).recover .inOrder ⟨r, 2⟩ (valueOnRanks 5 r) #[1, 1]
        (valueOnRanks 7 r)) out ∧
      (out 0)[0]? = some 7 := by
  obtain ⟨ready, hprepare⟩ := fluxOnRanks_prepared
  obtain ⟨marked, red, -, hready⟩ := prepared_together signLaws hprepare
  have hflux : ∀ r, (fluxOnRanks r).flux.Conforming := by
    intro r link hlink
    obtain rfl : signedLink r = link := Option.some.inj hlink
    exact ⟨signedCopy r, 1 - r, r, 1, signedLink r,
      Outcome.eq_ok_value (signedCopy_conforms r), rfl⟩
  let held (r : Fin 2) : Session Rat :=
    filled (fluxOnRanks r) {} (listedOne r) (red r) #v[2, 3]
  have hheld : ∀ r, (ready r).Assembled (held r) := by
    intro r
    rw [(hready r).1]
    exact ⟨red r, _, none, rfl, rfl⟩
  have hout : ∀ r, ∃ out, (held r).recover .inOrder ⟨r, 2⟩ (valueOnRanks 5 r) #[1, 1]
      (valueOnRanks 7 r) = .done (.ok out) := by
    intro r
    obtain ⟨v, hv⟩ := Reduction.localValues_returns (fluxOnRanks r).flux (size_valueOnRanks 5 r)
    obtain ⟨out, -, hrecover⟩ := Reduction.recover_eq
      { red r with store := ElementStore.ofBatch #v[2, 3] (red r).essential } rfl
      (ElementStore.built_ofBatch _ _) .inOrder ⟨r, 2⟩ #v[1, 1] hv (size_valueOnRanks 7 r)
    exact ⟨out, hrecover⟩
  choose out hout using hout
  have hrecover : Together (fun r : Fin 2 => (held r).recover .inOrder ⟨r, 2⟩ (valueOnRanks 5 r)
      #[1, 1] (valueOnRanks 7 r)) out := by
    simp only [hout]
    exact Together.done out
  obtain ⟨hkeeps, -⟩ := recover_keeps signLaws hflux hprepare hheld hrecover
  exact ⟨ready, held, out, hprepare, hheld, hrecover, ((hkeeps 0).listed 0 (by decide)).2⟩

end Session

end Condensation
