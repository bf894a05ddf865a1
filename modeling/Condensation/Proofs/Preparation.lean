/-
  Preparation — what a prepared session is known to hold.

  1. **Runs** — a scripted run of two steps that ends well is a run of the first step and a run of
     the second one on what the first one gave (`runScripted_bind`).

  2. **The reduction** — after the classification a rank finishes its reduction on its own
     (`newReduction_eq`).  Whatever the other ranks answered, a preparation that succeeds marks some
     broken degrees of freedom as essential, and with the elimination on, no coupling block has an
     entry in their rows (`cleared_newReduction`).

  3. **The session** — preparing keeps the discretization, the options and the given essential list;
     filling in all matrices replaces the store and nothing else.
-/
import Condensation.Session
import Condensation.Proofs.Collective
import Condensation.Proofs.ElementSolves

namespace Condensation

variable {S : Type}

/-! ## Runs -/

/-- The computation ended in a value. -/
def Outcome.hasValue {α : Type} : Outcome α → Bool
  | ok _ => true
  | _ => false

theorem Outcome.hasValue_iff {α : Type} {o : Outcome α} :
    o.hasValue = true ↔ ∃ a, o = .ok a := by
  cases o <;> simp [hasValue]

/-- The value that it ended in. -/
def Outcome.value {α : Type} : (o : Outcome α) → o.hasValue = true → α
  | ok a, _ => a

theorem Outcome.eq_ok_value {α : Type} {o : Outcome α} (h : o.hasValue = true) :
    o = .ok (o.value h) := by
  cases o with
  | ok a => rfl
  | fault why => simp [hasValue] at h
  | abort => simp [hasValue] at h

theorem Program.runScripted_bind {α β : Type} (p : Program S α) (f : α → Program S β)
    (replies : List (Reply S)) {b : β} (h : ((p >>= f).runScripted replies).outcome = .ok b) :
    ∃ a rest, (p.runScripted replies).outcome = .ok a ∧
      ((f a).runScripted rest).outcome = .ok b := by
  induction p generalizing replies with
  | done o =>
    cases o with
    | ok a => exact ⟨a, replies, rfl, h⟩
    | fault why => simp [runScripted] at h
    | abort => simp [runScripted] at h
  | gather mine next ih =>
    cases replies with
    | nil => simp [runScripted] at h
    | cons reply replies => exact ih reply.indices replies h
  | exchange wire send counts next ih =>
    cases replies with
    | nil => simp [runScripted] at h
    | cons reply replies => exact ih (reply.data wire) reply.counts replies h

/-- A step without calls. -/
theorem Program.runScripted_lift_bind {α β : Type} {o : Outcome α} {f : α → Program S β}
    {replies : List (Reply S)} {b : β}
    (h : (((liftM o : Program S α) >>= f).runScripted replies).outcome = .ok b) :
    ∃ a, o = .ok a ∧ ((f a).runScripted replies).outcome = .ok b := by
  cases o with
  | ok a => exact ⟨a, rfl, h⟩
  | fault why => simp [runScripted] at h
  | abort => simp [runScripted] at h

/-! ## The reduction -/

variable {disc : Discretization S}

namespace Coupling

/-- No block has an entry in a marked row. -/
def Cleared [Zero S] (c : Coupling disc) (marked : Vector Bool disc.numBroken) : Prop :=
  ∀ (side : Slot disc.ne disc.fpe) (i : Fin disc.m) (j : Fin disc.n),
    marked.get (Pairing.join side.element i) = true → (c.block side).entry i j = 0

/-- Clearing goes on block by block. -/
theorem get_of_clearEssential [Zero S] {c cleared : Coupling disc} {s : Schedule}
    {marked : Vector Bool disc.numBroken} (h : c.clearEssential s marked.toArray = .ok cleared)
    (k : Fin (disc.ne * disc.fpe)) :
    cleared.blocks.get k =
      (c.blocks.get k).clearRows (Pairing.part marked (Pairing.outer k)) := by
  rw [clearEssential, Outcome.sized_toArray, Outcome.ok_bind, s.each_pure, Outcome.ok_bind] at h
  obtain rfl := Outcome.ok.inj h
  exact Vector.get_ofFn_eq _ k

theorem cleared_clearEssential [Zero S] {c cleared : Coupling disc} {s : Schedule}
    {marked : Vector Bool disc.numBroken}
    (h : c.clearEssential s marked.toArray = .ok cleared) : cleared.Cleared marked := by
  intro side i j hi
  show (cleared.blocks.get side.number).entry i j = 0
  rw [get_of_clearEssential h]
  simp [Dense.clearRows, Slot.number, hi]

end Coupling

/-- A mesh that can be condensed has faces. -/
theorem Mesh.facesPerElement_pos {mesh : Mesh} (h : mesh.validate = .ok ()) :
    0 < mesh.facesPerElement := by
  obtain ⟨_, -, h⟩ := Outcome.bind_eq_ok_iff.1 h
  obtain ⟨_, hfaces, -⟩ := Outcome.bind_eq_ok_iff.1 h
  exact Nat.pos_of_ne_zero (Outcome.require_eq_ok_iff.1 hfaces)

/-- A new session holds nothing. -/
theorem Session.start_eq {options : Options S} {fresh : Session S}
    (h : start disc options = .ok fresh) :
    disc.mesh.validate = .ok () ∧ fresh = ⟨disc, options, [], none, none⟩ := by
  obtain ⟨_, hvalid, h⟩ := Outcome.bind_eq_ok_iff.1 h
  refine ⟨hvalid, ?_⟩
  simpa using h.symm

namespace Session

variable [Zero S]

/-- The coupling with given marks. -/
def couplingFrom (disc : Discretization S) (options : Options S) (s : Schedule)
    (faces : FaceBlocks S) (marked : Vector Bool disc.numBroken) : Outcome (Coupling disc) := do
  let built ← Coupling.ofFaceBlocks disc s faces
  if options.eliminateEssentialCoupling then built.clearEssential s marked.toArray
  else return built

/-- With the elimination on, marked rows are cleared in every block. -/
theorem cleared_of_couplingFrom {options : Options S}
    (helim : options.eliminateEssentialCoupling = true) {s : Schedule} {faces : FaceBlocks S}
    {marked : Vector Bool disc.numBroken} {coupling : Coupling disc}
    (h : couplingFrom disc options s faces marked = .ok coupling) : coupling.Cleared marked := by
  unfold couplingFrom at h
  rw [helim] at h
  obtain ⟨built, -, hclear⟩ := Outcome.bind_eq_ok_iff.1 h
  exact Coupling.cleared_clearEssential hclear

/-- The reduction with given marks. -/
def reductionFrom (disc : Discretization S) (options : Options S) (s : Schedule)
    (faces : FaceBlocks S) (marked : Vector Bool disc.numBroken) : Outcome (Reduction disc) := do
  let copies ← disc.flux.firstCopies
  let coupling ← couplingFrom disc options s faces marked
  let store ← ElementStore.empty? disc.ne disc.m
  return ⟨marked, copies, coupling, store⟩

/-- What a reduction with given marks holds. -/
theorem of_reductionFrom {options : Options S} {s : Schedule} {faces : FaceBlocks S}
    {marked : Vector Bool disc.numBroken} {red : Reduction disc}
    (h : reductionFrom disc options s faces marked = .ok red) :
    red.essential = marked ∧ red.copies = .among disc.flux.gather ∧
      couplingFrom disc options s faces marked = .ok red.coupling ∧
      ElementStore.empty? disc.ne disc.m = .ok red.store := by
  unfold reductionFrom at h
  obtain ⟨copies, hcopies, h⟩ := Outcome.bind_eq_ok_iff.1 h
  obtain ⟨coupling, hcoupling, h⟩ := Outcome.bind_eq_ok_iff.1 h
  obtain ⟨store, hstore, h⟩ := Outcome.bind_eq_ok_iff.1 h
  obtain rfl := Outcome.ok.inj h
  obtain ⟨_, -, hcopies⟩ := Outcome.bind_eq_ok_iff.1 hcopies
  exact ⟨rfl, (Outcome.ok.inj hcopies).symm, hcoupling, hstore⟩

variable [One S] [BEq S]

/-- What comes after the classification is the rank's own. -/
theorem newReduction_eq (disc : Discretization S) (options : Options S) (essential : List Nat)
    (s : Schedule) (place : Place) (faces : FaceBlocks S) :
    newReduction disc options essential s place faces =
      Program.done disc.mesh.validate >>= fun _ =>
        disc.flux.essentialCopies s place essential >>= fun marked =>
          Program.done (reductionFrom disc options s faces marked) := by
  simp only [newReduction, reductionFrom, couplingFrom, Program.liftM_eq]
  congr 1
  funext _
  congr 1
  funext marked
  cases options.eliminateEssentialCoupling
  · simp only [Bool.false_eq_true, if_false, Program.pure_eq, Outcome.pure_eq,
      Program.done_bind_done, bind_assoc]
  · simp only [if_true, Program.pure_eq, Outcome.pure_eq, Program.done_bind_done, bind_assoc]

/-- **The reduction**: with the elimination on, essential rows are cleared in every block. -/
theorem cleared_newReduction {options : Options S} {essential : List Nat} {s : Schedule}
    {place : Place} {faces : FaceBlocks S} {replies : List (Reply S)} {red : Reduction disc}
    (helim : options.eliminateEssentialCoupling = true)
    (h : ((newReduction disc options essential s place faces).runScripted
      replies).outcome = .ok red) :
    red.coupling.Cleared red.essential := by
  rw [newReduction_eq] at h
  obtain ⟨_, -, h⟩ := Program.runScripted_lift_bind h
  obtain ⟨marked, rest, -, h⟩ := Program.runScripted_bind _ _ _ h
  obtain ⟨rfl, -, hcoupling, -⟩ := of_reductionFrom h
  exact cleared_of_couplingFrom helim hcoupling

end Session

/-! ## The session -/

namespace Session

variable [Zero S] [One S] [BEq S]

/-- **The session** after a preparation: as before, with the new list and a cleared reduction. -/
theorem prepare_spec {options : Options S} {former essential : List Nat}
    {matrix : Option (InterfaceMatrix S)} {s : Schedule} {place : Place} {faces : FaceBlocks S}
    {replies : List (Reply S)} {ready : Session S}
    (helim : options.eliminateEssentialCoupling = true)
    (h : (((⟨disc, options, former, none, matrix⟩ : Session S).prepare s place faces
      essential).rest.runScripted replies).outcome = .ok (ready, ())) :
    ∃ red : Reduction disc, ready = ⟨disc, options, essential, some red, none⟩ ∧
      red.coupling.Cleared red.essential := by
  simp only [prepare, Option.isSome_none, Bool.false_eq_true, if_false, prepareWithKept] at h
  obtain ⟨red, rest, hred, h⟩ := Program.runScripted_bind _ _ _ h
  refine ⟨red, ?_, cleared_newReduction helim hred⟩
  have : ((⟨disc, options, essential, none, matrix⟩ : Session S).holding red, ()) = (ready, ()) := by
    simpa [Program.runScripted] using h
  exact (congrArg Prod.fst this).symm

end Session

end Condensation
