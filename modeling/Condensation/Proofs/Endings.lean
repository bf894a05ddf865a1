/-
  Endings — computations that end with a value or with a refusal.

  1. **Orderly** — a computation is orderly if it does not abort, and is not refused because a face
     ran out of places.  A sequence is orderly when its first step is, and its second one is for
     every value of the first (`Orderly.bind`); so are families, lists and schedules of orderly
     steps.

  2. **A single rank** — gathering ranges gives back the range of the rank if that is the whole
     space, and refuses it otherwise (`gather_alone`); so pulling, pushing and routing never leave
     the owned values (`pull_alone`, `push_alone`), and the products with a link are orderly.
     What is orderly ends alone as it does in a family of one (`Together.alone`).
-/
import Condensation.Proofs.Collective
import Condensation.Proofs.Histories
import Condensation.Proofs.Scheduling
import Condensation.Proofs.Sizes
import Condensation.Dofs.TrueDofs

namespace Condensation

variable {S α β : Type}

/-! ## Orderly outcomes -/

namespace Outcome

/-- The computation ends with a value, or with a refusal other than that of a face without a free
    place. -/
def Orderly : Outcome α → Prop
  | ok _ => True
  | fault why => ∀ face capacity, why ≠ .tooManyNeighbors face capacity
  | abort => False

theorem orderly_ok (a : α) : (ok a).Orderly := trivial

theorem orderly_of_eq_ok {x : Outcome α} {a : α} (h : x = ok a) : x.Orderly := by
  rw [h]
  exact orderly_ok a

/-- What is orderly does not abort. -/
theorem Orderly.ne_abort {x : Outcome α} (h : x.Orderly) : x ≠ abort := by
  rintro rfl
  exact h

/-- **Sequences**: an orderly step, and an orderly one after every value of it. -/
theorem Orderly.bind {x : Outcome α} {f : α → Outcome β} (hx : x.Orderly)
    (hf : ∀ a, x = ok a → (f a).Orderly) : (x >>= f).Orderly := by
  cases x with
  | ok a => exact hf a rfl
  | fault why => exact hx
  | abort => exact hx

/-- A check is orderly unless it refuses because of a face without a free place; -/
theorem orderly_require {p : Prop} [Decidable p] {why : Fault}
    (hwhy : ∀ face capacity, why ≠ .tooManyNeighbors face capacity) : (require p why).Orderly := by
  unfold require
  split
  · exact orderly_ok _
  · exact hwhy

/-- so the checks of lengths are, -/
theorem orderly_sameLength (what : Quantity) (expected found : Nat) :
    (sameLength what expected found).Orderly :=
  orderly_require fun _ _ => by simp

/-- also where the checked array goes on as a vector, -/
theorem orderly_sized (what : Quantity) (n : Nat) (a : Array α) : (sized what n a).Orderly := by
  unfold sized
  split
  · exact orderly_ok _
  · exact fun _ _ => by simp

/-- and so is a search that may fail. -/
theorem orderly_orFault {why : Fault}
    (hwhy : ∀ face capacity, why ≠ .tooManyNeighbors face capacity) (x : Option α) :
    (orFault why x).Orderly := by
  cases x with
  | none => exact hwhy
  | some a => exact orderly_ok a

/-- **Families**: a tabulation is orderly when every member is. -/
theorem orderly_tabulate {n : Nat} {f : Fin n → Outcome α} (h : ∀ i, (f i).Orderly) :
    (tabulate f).Orderly := by
  induction n with
  | zero => exact orderly_ok _
  | succ n ih =>
    exact (ih fun i => h i.castSucc).bind fun _ _ => (h (Fin.last n)).bind fun _ _ => orderly_ok _

/-- **Lists**, item after item. -/
theorem orderly_mapM {f : α → Outcome β} {l : List α} (h : ∀ a ∈ l, (f a).Orderly) :
    (l.mapM f).Orderly := by
  induction l with
  | nil => exact orderly_ok _
  | cons a rest ih =>
    rw [List.mapM_cons]
    exact (h a List.mem_cons_self).bind fun _ _ =>
      (ih fun b hb => h b (List.mem_cons_of_mem _ hb)).bind fun _ _ => orderly_ok _

/-- **Passes** over a list with an accumulator, where every step is orderly whatever it starts from.
    -/
theorem orderly_foldlM {f : β → α → Outcome β} (h : ∀ b a, (f b a).Orderly) (l : List α) (b : β) :
    (l.foldlM f b).Orderly := by
  induction l generalizing b with
  | nil => exact orderly_ok b
  | cons a rest ih =>
    rw [List.foldlM_cons]
    exact (h b a).bind fun next _ => ih next

/-- The values of a list of computations, one for each. -/
theorem length_of_mapM {f : α → Outcome β} {l : List α} {m : List β} (h : l.mapM f = ok m) :
    m.length = l.length := by
  induction l generalizing m with
  | nil =>
    obtain rfl : [] = m := by simpa using h
    rfl
  | cons a rest ih =>
    rw [List.mapM_cons] at h
    obtain ⟨b, -, h⟩ := bind_eq_ok_iff.1 h
    obtain ⟨bs, hbs, h⟩ := bind_eq_ok_iff.1 h
    obtain rfl : b :: bs = m := by simpa using h
    rw [List.length_cons, List.length_cons, ih hbs]

theorem orderly_exactly {n : Nat} {l : List α} (h : l.length = n) : (exactly n l).Orderly :=
  orderly_of_eq_ok (dif_pos h)

/-! ### Sizes -/

theorem orderly_sum {a b : Nat} (h : a + b < Size.limit) : (Size.sum a b).Orderly :=
  orderly_of_eq_ok (if_pos h)

theorem orderly_table {n : Nat} (h : n < Size.tableLimit) : (Size.table n).Orderly :=
  orderly_of_eq_ok (check_eq_ok_iff.2 h : Size.table n = ok ())

end Outcome

/-! ### Schedules -/

/-- Items on entries that are orderly, whatever they find there. -/
theorem Schedule.orderly_each (s : Schedule) {n : Nat} (v : Vector α n)
    {body : Fin n → α → Outcome α} (h : ∀ i a, (body i a).Orderly) : (s.each v body).Orderly := by
  refine Outcome.orderly_foldlM (fun w i => ?_) (s.order n) v
  exact (h i (w.get i)).bind fun _ _ => Outcome.orderly_ok _

/-! ## A single rank -/

namespace Program

/-- A program is orderly if it is with a single rank. -/
def Orderly (p : Program S α) : Prop := p.runAlone.Orderly

theorem orderly_done {o : Outcome α} (h : o.Orderly) : (done o : Program S α).Orderly := h

theorem orderly_return (a : α) : (done (.ok a) : Program S α).Orderly :=
  orderly_done (Outcome.orderly_ok a)

/-- **Sequences** of programs: the second one starts from what the first one returns alone. -/
theorem Orderly.bind {p : Program S α} {f : α → Program S β} (hp : p.Orderly)
    (hf : ∀ a, p.runAlone = .ok a → (f a).Orderly) : (p >>= f).Orderly := by
  rw [Orderly, runAlone_bind]
  exact Outcome.Orderly.bind hp hf

/-- A step without calls. -/
theorem orderly_lift_bind {o : Outcome α} {f : α → Program S β} (ho : o.Orderly)
    (hf : ∀ a, o = .ok a → (f a).Orderly) : ((liftM o : Program S α) >>= f).Orderly :=
  Orderly.bind (orderly_done ho) hf

end Program

/-- A run that does not abort ends alone as it does in a family of one. -/
theorem Program.runFirst_nil {p : Program S α} (h : p.runAlone ≠ .abort) :
    p.runFirst [] = [some p.runAlone] := by
  induction p with
  | done o => rfl
  | gather mine next ih =>
    simp only [runAlone] at h ⊢
    simpa [runFirst] using ih mine h
  | exchange wire send counts next ih =>
    simp only [runAlone] at h ⊢
    split at h
    · next hcounts =>
      -- the one bucket is the whole of what is sent
      subst hcounts
      simpa [runFirst, delivered, buckets] using ih send [send.length] h
    · exact absurd rfl h

/-- A family of one that ends well has the value of the single rank. -/
theorem Together.alone {p : Fin 1 → Program S α} {a : Fin 1 → α} (h : Together p a)
    (horderly : (p 0).Orderly) : (p 0).runAlone = .ok (a 0) := by
  have hend : [some (p 0).runAlone] = [some (.ok (a 0))] :=
    (Program.runFirst_nil horderly.ne_abort).symm.trans h
  simpa using hend

/-- The range of a rank that owns everything. -/
def wholeRange (len : Nat) : IndexRange := ⟨0, len⟩

namespace Ownership

/-- **Agreement**: a single rank has to own the whole space. -/
theorem gather_alone (offset len global : Nat) :
    (gather .alone offset len global : Program S Ownership).runAlone = (do
      let last ← Size.sum offset len
      if offset = 0 then
        Outcome.require (last = global) (.badNumbering (.rangesCover last global))
        return ⟨[len]⟩
      else .fault (.badNumbering (.rangeGap 0 offset last 0))) := by
  have hproduct : Size.product [2, 1] = .ok 2 := Size.product_eq_ok_iff.2 (by simp [Size.InRange])
  have hlength : Outcome.sameLength .gatheredRanges 2 [offset, len].length = .ok () :=
    Outcome.require_eq_ok_iff.2 rfl
  simp only [gather, Program.allGather, Program.gather_bind, Program.done_ok_bind, Program.runAlone,
    Program.liftM_eq, Place.alone, hproduct, hlength, Program.runAlone_bind, tiled]
  cases Size.sum offset len with
  | ok last =>
    by_cases hstart : offset = 0
    · simp [hstart]
    · simp [hstart]
  | fault why => rfl
  | abort => rfl

/-- A range that stays in range is agreed upon or refused. -/
theorem orderly_gather {offset len global : Nat} (h : offset + len < Size.limit) :
    (gather .alone offset len global : Program S Ownership).Orderly := by
  rw [Program.Orderly, gather_alone]
  refine (Outcome.orderly_sum h).bind fun last _ => ?_
  split
  · exact (Outcome.orderly_require fun _ _ => by simp).bind fun _ _ => Outcome.orderly_ok _
  · exact fun _ _ => by simp

/-- What a single rank has gathered. -/
theorem of_gather_alone {offset len global : Nat} {o : Ownership}
    (h : (gather .alone offset len global : Program S Ownership).runAlone = .ok o) :
    o = ⟨[len]⟩ := by
  rw [gather_alone] at h
  obtain ⟨last, -, h⟩ := Outcome.bind_eq_ok_iff.1 h
  split at h
  · obtain ⟨_, -, h⟩ := Outcome.bind_eq_ok_iff.1 h
    exact (Outcome.ok.inj h).symm
  · simp at h

theorem rangeAt_alone (len : Nat) :
    (⟨[len]⟩ : Ownership).rangeAt Place.alone.rank = .ok (wholeRange len) := by
  simp [rangeAt, numRanks, Place.alone, range, start, wholeRange]

end Ownership

namespace Exchange

/-- **Pulling** from oneself. -/
theorem pull_alone (len : Nat) (owned : List S) (wanted : List Nat) :
    (pull .alone ⟨[len]⟩ owned wanted).runAlone = (do
      Outcome.sameLength .ownedValues len owned.length
      wanted.mapM (lookup (wholeRange len) owned)) := by
  simp only [pull, Ownership.rangeAt_alone, Program.liftM_eq, Program.runAlone_bind,
    Program.runAlone_done, Outcome.ok_bind]
  rfl

/-- An index is refused or found: the owned values are as many as the range says. -/
theorem orderly_lookup {mine : IndexRange} {owned : List S} (h : mine.length = owned.length)
    (g : Nat) : (lookup mine owned g).Orderly := by
  unfold lookup
  split
  · next hholds =>
    have hg : g - mine.first < owned.length := by
      have hfirst := hholds.1
      have hlast := hholds.2
      unfold IndexRange.length at h
      omega
    rw [List.getElem?_eq_getElem hg]
    exact Outcome.orderly_ok _
  · exact fun _ _ => by simp

/-- A single rank gets values or is refused, -/
theorem orderly_pull (len : Nat) (owned : List S) (wanted : List Nat) :
    (pull .alone ⟨[len]⟩ owned wanted).Orderly := by
  rw [Program.Orderly, pull_alone]
  refine (Outcome.orderly_sameLength _ _ _).bind fun _ hlen => ?_
  have hmine : (wholeRange len).length = owned.length := Outcome.require_eq_ok_iff.1 hlen
  exact Outcome.orderly_mapM fun g _ => orderly_lookup hmine g

/-- and has one value for every index that it wanted. -/
theorem length_of_pull {len : Nat} {owned values : List S} {wanted : List Nat}
    (h : (pull .alone ⟨[len]⟩ owned wanted).runAlone = .ok values) :
    values.length = wanted.length := by
  rw [pull_alone] at h
  obtain ⟨_, -, h⟩ := Outcome.bind_eq_ok_iff.1 h
  exact Outcome.length_of_mapM h

section Pushing

variable [Add S]

/-- A contribution from outside the range is refused, and no other one. -/
theorem orderly_addOwned (mine : IndexRange) (sums : List S) (contribution : Nat × S) :
    (addOwned mine sums contribution).Orderly := by
  unfold addOwned
  split
  · exact Outcome.orderly_ok _
  · exact fun _ _ => by simp

/-- Adding to owned sums keeps their number. -/
theorem length_of_foldlM_addOwned {mine : IndexRange} {contributions : List (Nat × S)}
    {sums final : List S} (h : contributions.foldlM (addOwned mine) sums = .ok final) :
    final.length = sums.length := by
  induction contributions generalizing sums with
  | nil =>
    obtain rfl : sums = final := by simpa using h
    rfl
  | cons c rest ih =>
    rw [List.foldlM_cons] at h
    obtain ⟨next, hnext, h⟩ := Outcome.bind_eq_ok_iff.1 h
    unfold addOwned at hnext
    split at hnext
    · obtain rfl := Outcome.ok.inj hnext
      rw [ih h, List.length_modify]
    · simp at hnext

variable [Zero S]

/-- **Pushing** to oneself. -/
theorem push_alone (len : Nat) (indices : List Nat) (values : List S) :
    (push .alone ⟨[len]⟩ indices values).runAlone = (do
      Outcome.sameLength .contributions indices.length values.length
      (indices.zip values).foldlM (addOwned (wholeRange len)) (List.replicate len 0)) := by
  simp only [push, Ownership.rangeAt_alone, Program.liftM_eq, Program.runAlone_bind,
    Program.runAlone_done, Outcome.ok_bind]
  rfl

/-- A single rank gets sums or is refused, -/
theorem orderly_push (len : Nat) (indices : List Nat) (values : List S) :
    (push .alone ⟨[len]⟩ indices values).Orderly := by
  rw [Program.Orderly, push_alone]
  exact (Outcome.orderly_sameLength _ _ _).bind fun _ _ =>
    Outcome.orderly_foldlM (orderly_addOwned _) _ _

/-- and has one sum for every index that it owns. -/
theorem length_of_push {len : Nat} {indices : List Nat} {values sums : List S}
    (h : (push .alone ⟨[len]⟩ indices values).runAlone = .ok sums) : sums.length = len := by
  rw [push_alone] at h
  obtain ⟨_, -, h⟩ := Outcome.bind_eq_ok_iff.1 h
  rw [length_of_foldlM_addOwned h, List.length_replicate]

end Pushing

/-- A single rank keeps all its entries. -/
theorem toRowOwners_alone (o : Ownership) (triplets : List (Triplet S)) :
    toRowOwners .alone o triplets = .done (.ok triplets) :=
  if_pos rfl

end Exchange

/-! ## Links -/

namespace TrueDofs

variable {l : Nat}

/-- The owned part of a link ends within its true space, so it stays in range with it. -/
theorem last_lt_limit (link : TrueDofs S l) (h : link.numGlobal < Size.limit) :
    link.offset + link.numOwned < Size.limit :=
  lt_of_le_of_lt link.fits h

/-- Two lengths are compared, and the owners are asked for what the link references. -/
theorem orderly_product (link : TrueDofs S l) (h : link.numGlobal < Size.limit)
    {what what' : Quantity} {expected found expected' found' : Nat} {owned : List S}
    {f : Vector S link.prolongation.referenced.length → Program S α} (hf : ∀ x, (f x).Orderly) :
    ((liftM (Outcome.sameLength what expected found) : Program S Unit) >>= fun _ =>
      (liftM (Outcome.sameLength what' expected' found') : Program S Unit) >>= fun _ =>
        link.ranges .alone >>= fun ranges =>
          Exchange.pull .alone ranges owned link.columns >>= fun values =>
            (liftM (Outcome.exactly link.prolongation.referenced.length values) :
              Program S (Vector S _)) >>= f).Orderly := by
  refine Program.orderly_lift_bind (Outcome.orderly_sameLength _ _ _) fun _ _ => ?_
  refine Program.orderly_lift_bind (Outcome.orderly_sameLength _ _ _) fun _ _ => ?_
  refine (Ownership.orderly_gather (link.last_lt_limit h)).bind fun ranges hranges => ?_
  obtain rfl := Ownership.of_gather_alone hranges
  refine (Exchange.orderly_pull _ _ _).bind fun values hvalues => ?_
  have hlength : values.length = link.prolongation.referenced.length :=
    (Exchange.length_of_pull hvalues).trans (List.length_map _)
  exact Program.orderly_lift_bind (Outcome.orderly_exactly hlength) fun x _ => hf x

section Products

variable [Zero S] [Add S] [Mul S]

/-- **Products** with a link: `P t`, -/
theorem orderly_prolong (link : TrueDofs S l) (h : link.numGlobal < Size.limit)
    (t into : Array S) : (link.prolong .alone t into).Orderly :=
  link.orderly_product h fun _ => Program.orderly_return _

/-- `Pᵀ v`, whose sums are as many as the rank owns, -/
theorem orderly_prolongTranspose (link : TrueDofs S l) (h : link.numGlobal < Size.limit)
    (v into : Array S) : (link.prolongTranspose .alone v into).Orderly := by
  refine Program.orderly_lift_bind (Outcome.orderly_sized _ _ _) fun v _ => ?_
  refine Program.orderly_lift_bind (Outcome.orderly_sameLength _ _ _) fun _ _ => ?_
  refine (Ownership.orderly_gather (link.last_lt_limit h)).bind fun ranges hranges => ?_
  obtain rfl := Ownership.of_gather_alone hranges
  refine (Exchange.orderly_push _ _ _).bind fun sums hsums => ?_
  exact Program.orderly_lift_bind (Outcome.orderly_exactly (Exchange.length_of_push hsums))
    fun _ _ => Program.orderly_return _

end Products

/-- and the marks that depend on marked degrees of freedom. -/
theorem orderly_dependents [Zero S] [One S] [BEq S] (link : TrueDofs S l)
    (h : link.numGlobal < Size.limit) (t into : Array Bool) :
    (link.dependents .alone t into).Orderly :=
  link.orderly_product h fun _ => Program.orderly_return _

end TrueDofs

end Condensation
