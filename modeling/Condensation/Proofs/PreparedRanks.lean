/-
  Prepared ranks — what all ranks hold that were prepared together.

  1. **First copies** — the two tables of the chosen copies agree with the gather table, and every
     local degree of freedom with a broken copy has a chosen one (`chosen_among`).

  2. **All ranks (`classify`)** — ranks with and ranks without a link are never prepared together:
     the first wait for calls that the others do not make.

  3. **The result (`prepared_together`)** — every rank holds a reduction that was made from the
     marks of its prescribed degrees of freedom.
-/
import Condensation.Proofs.ChosenCopies
import Condensation.Proofs.Classification
import Condensation.Proofs.Preparation

namespace Condensation

variable {S α : Type} {n : Nat}

/-! ## First copies -/

namespace FirstCopies

variable {K L : Nat} {gather : Vector (Signed (Fin L)) K}

/-- Both tables agree with the gather table; what is in `seen` has been considered. -/
structure Chosen (gather : Vector (Signed (Fin L)) K) (seen : List (Fin K))
    (c : FirstCopies K L) : Prop where
  toLocal_eq : ∀ k g, c.toLocal.get k = some g → g = gather.get k
  toBroken_eq : ∀ l g, c.toBroken.get l = some g → gather.get g.index = ⟨l, g.orientation⟩
  found : ∀ k ∈ seen, c.toBroken.get (gather.get k).index ≠ none

/-- **First copies**: every local degree of freedom with a broken copy has a chosen one. -/
theorem chosen_among (gather : Vector (Signed (Fin L)) K) :
    ∃ seen, (∀ k, k ∈ seen) ∧ Chosen gather seen (among gather) := by
  have h := choosesFirst_among gather
  refine ⟨List.finRange K, List.mem_finRange, fun k g hg => ?_, fun l g hg => ?_, ?_⟩
  · exact ((h.first_iff _ _ _).1 ((h.paired k _ _).1 hg)).1.symm
  · exact ((h.first_iff l _ _).1 hg).1
  · exact fun k _ hnone => (h.none_iff _).1 hnone k rfl

end FirstCopies

/-! ## All ranks -/

section Mixed

variable [Zero S] [One S] [BEq S] {ne : Fin n → Nat}
  {flux : ∀ r, FluxSpace S (ne r)} {essential : Fin n → List Nat} {s : Fin n → Schedule}

/-- A rank without a link classifies without the others. -/
theorem FluxSpace.essentialCopies_unlinked {ne : Nat} {space : FluxSpace S ne}
    (h : space.trueDofs = none) (s : Schedule) (place : Place) (essential : List Nat) :
    ∃ o, space.essentialCopies s place essential = .done o := by
  simp only [essentialCopies, h, Program.liftM_eq, Program.done_bind_done]
  exact ⟨_, rfl⟩

/-- A rank with a link does not. -/
theorem FluxSpace.essentialCopies_linked {ne : Nat} {space : FluxSpace S ne}
    {link : TrueDofs S space.numLocal} (h : space.trueDofs = some link) (s : Schedule)
    (place : Place) (essential : List Nat)
    (marked : Vector Bool (ne * space.dofsPerElement)) :
    space.essentialCopies s place essential ≠ .done (.ok marked) := by
  intro hended
  simp only [essentialCopies, h, TrueDofs.dependents, TrueDofs.ranges, Ownership.gather,
    Program.allGather, Program.liftM_eq] at hended
  obtain ⟨_, -, hended⟩ := Program.bind_eq_done_iff.1 hended
  obtain ⟨_, hended, -⟩ := Program.bind_eq_done_iff.1 hended
  obtain ⟨_, -, hended⟩ := Program.bind_eq_done_iff.1 hended
  obtain ⟨_, -, hended⟩ := Program.bind_eq_done_iff.1 hended
  obtain ⟨_, hended, -⟩ := Program.bind_eq_done_iff.1 hended
  exact absurd hended (by simp)

/-- **All ranks**: those that come to their end together all have links, or none has one; either
    way exactly the broken copies of prescribed degrees of freedom are marked. -/
theorem classify [Neg S] [Mul S] (laws : SignLaws S)
    {f : ∀ r, Vector Bool (ne r * (flux r).dofsPerElement) → Outcome α} {a : Fin n → α}
    (h : Together (fun r : Fin n => (flux r).essentialCopies (s r) ⟨r, n⟩ (essential r) >>=
      fun marked => (Program.done (f r marked) : Program S α)) a) :
    ∃ marked, Classified flux essential s marked ∧ ∀ r, f r (marked r) = .ok (a r) := by
  have hmarked : ∃ marked, Classified flux essential s marked := by
    by_cases hnone : ∀ r, (flux r).trueDofs = none
    · exact classify_unlinked hnone h
    · obtain ⟨q, hq⟩ := not_forall.1 hnone
      obtain ⟨linkq, hlinkq⟩ := Option.ne_none_iff_exists'.1 hq
      have hall : ∀ r, ∃ link, (flux r).trueDofs = some link := by
        intro r
        by_contra hr
        have hr : (flux r).trueDofs = none := by
          cases hlink : (flux r).trueDofs with
          | none => rfl
          | some link => exact absurd ⟨link, hlink⟩ hr
        -- rank `r` ends without the others, but rank `q` cannot
        obtain ⟨o, ho⟩ := FluxSpace.essentialCopies_unlinked hr (s r) ⟨r, n⟩ (essential r)
        have hended : (flux r).essentialCopies (s r) ⟨r, n⟩ (essential r) >>=
            (fun marked => (Program.done (f r marked) : Program S α)) = .done (o >>= f r) := by
          rw [ho, Program.done_bind_done]
        obtain ⟨_, hdone, -⟩ := Program.bind_eq_done_iff.1 (h.ended hended q)
        exact FluxSpace.essentialCopies_linked hlinkq _ _ _ _ hdone
      choose link hlink using hall
      exact classify_linked laws hlink h
  obtain ⟨marked, hclassified⟩ := hmarked
  have hrest := hclassified.next.1 h
  exact ⟨marked, hclassified, fun r => hrest.of_done rfl⟩

end Mixed

/-! ## The result -/

namespace Session

variable [Zero S] [One S] [BEq S]

/-- A session that is prepared was not prepared before. -/
theorem unprepared_of_prepare {session : Fin n → Session S} {s : Fin n → Schedule}
    {faces : Fin n → FaceBlocks S} {essential : Fin n → List Nat} {a : Fin n → Session S × Unit}
    (h : Together (fun r : Fin n => ((session r).prepare (s r) ⟨r, n⟩ (faces r)
      (essential r)).rest) a) (r : Fin n) : (session r).reduction.isSome = false := by
  cases hprepared : (session r).reduction.isSome with
  | false => rfl
  | true =>
    have hrefused : ((session r).prepare (s r) ⟨r, n⟩ (faces r) (essential r)).rest =
        .done (.fault .preparedAlready) := by
      simp only [prepare, hprepared, if_true]
      rfl
    exact absurd (h.of_done hrefused) (by simp)

/-- The classification is what a preparation needs the others for. -/
theorem prepare_eq {session : Session S} (h : session.reduction.isSome = false) (s : Schedule)
    (place : Place) (faces : FaceBlocks S) (essential : List Nat) :
    (session.prepare s place faces essential).rest =
      Program.done session.disc.mesh.validate >>= fun _ =>
        session.disc.flux.essentialCopies s place essential >>= fun marked => Program.done
          (reductionFrom session.disc session.options s faces marked >>= fun red =>
            .ok (⟨session.disc, session.options, essential, some red, none⟩, ())) := by
  simp only [prepare, h, Bool.false_eq_true, if_false, prepareWithKept, newReduction_eq,
    Program.bind_assoc, Program.pure_eq, Program.done_bind_done]
  rfl

/-- The meshes of sessions that were prepared can be condensed. -/
theorem validate_of_prepare {session : Fin n → Session S} {s : Fin n → Schedule}
    {faces : Fin n → FaceBlocks S} {essential : Fin n → List Nat} {a : Fin n → Session S × Unit}
    (h : Together (fun r : Fin n => ((session r).prepare (s r) ⟨r, n⟩ (faces r)
      (essential r)).rest) a) (r : Fin n) : (session r).disc.mesh.validate = .ok () := by
  have hfresh := unprepared_of_prepare h
  simp only [fun r => prepare_eq (hfresh r) (s r) ⟨r, n⟩ (faces r) (essential r)] at h
  obtain ⟨_, hvalid, -⟩ := Together.of_lift_bind h
  exact hvalid r

variable [Neg S] [Mul S]

/-- **The result**: what all ranks hold after they were prepared together. -/
theorem prepared_together (laws : SignLaws S) {session ready : Fin n → Session S}
    {s : Fin n → Schedule} {faces : Fin n → FaceBlocks S} {essential : Fin n → List Nat}
    (h : Together (fun r : Fin n => ((session r).prepare (s r) ⟨r, n⟩ (faces r)
      (essential r)).rest) fun r => (ready r, ())) :
    ∃ (marked : ∀ r, Vector Bool (session r).disc.numBroken)
      (red : ∀ r, Reduction (session r).disc),
      Classified (fun r => (session r).disc.flux) essential s marked ∧
        ∀ r, ready r = ⟨(session r).disc, (session r).options, essential r, some (red r), none⟩ ∧
          reductionFrom (session r).disc (session r).options (s r) (faces r) (marked r) =
            .ok (red r) := by
  have hfresh := unprepared_of_prepare h
  simp only [fun r => prepare_eq (hfresh r) (s r) ⟨r, n⟩ (faces r) (essential r)] at h
  obtain ⟨_, -, h⟩ := Together.of_lift_bind h
  obtain ⟨marked, hclassified, hrest⟩ := classify laws h
  choose red hred hready using fun r => Outcome.bind_eq_ok_iff.1 (hrest r)
  refine ⟨marked, red, hclassified, fun r => ⟨?_, hred r⟩⟩
  exact (congrArg Prod.fst (Outcome.ok.inj (hready r))).symm

end Session

end Condensation
