/-
  Scheduling — a kernel gives the same result in every order of its items.

  1. **Slices** — every kernel reads the slice of its item, computes a new one from it, and writes
     that back.  `Slices` is this access pattern: what was written is read back, and writing one
     slice leaves all others as they are.

  2. **The crux (`run_returns`)** — an item that has not run yet still finds its slice as it was in
     the beginning, whatever ran before it.  So a run ends well exactly when every item does on
     the initial slices, and then each slice holds what its item made of it.

  3. **Instances** — one entry per item (`each_eq_ok_iff`), and one segment of each of two buffers
     per item (`onSegmentPairs_returns`).
-/
import Condensation.Schedule
import Mathlib.Tactic.Choose

namespace Condensation

/-- Access to a shared state in `n` slices that do not overlap. -/
structure Slices (σ : Type) (n : Nat) (γ : Fin n → Type) where
  look : (i : Fin n) → σ → γ i
  store : (i : Fin n) → γ i → σ → σ
  look_store_self : ∀ i c st, look i (store i c st) = c
  look_store_of_ne : ∀ {i j} c st, i ≠ j → look j (store i c st) = look j st

namespace Slices

variable {σ : Type} {n : Nat} {γ : Fin n → Type}

/-- One item of a kernel: read the slice, compute, write the slice. -/
def item (sl : Slices σ n γ) (body : (i : Fin n) → γ i → Outcome (γ i)) (i : Fin n) (st : σ) :
    Outcome σ := do
  let c ← body i (sl.look i st)
  return sl.store i c st

variable (sl : Slices σ n γ) (body : (i : Fin n) → γ i → Outcome (γ i))

/-- Items that can compute on the initial slices can run one after another. -/
theorem foldlM_returns (out : (i : Fin n) → γ i) (items : List (Fin n)) (hnd : items.Nodup)
    (init : σ) (hbody : ∀ i ∈ items, body i (sl.look i init) = .ok (out i)) :
    ∃ final, items.foldlM (fun st i => sl.item body i st) init = .ok final ∧
      (∀ i ∈ items, sl.look i final = out i) ∧
      ∀ i, i ∉ items → sl.look i final = sl.look i init := by
  induction items generalizing init with
  | nil => exact ⟨init, rfl, by simp, fun i _ => rfl⟩
  | cons i rest ih =>
    obtain ⟨hi, hrest⟩ := List.nodup_cons.1 hnd
    have first : sl.item body i init = .ok (sl.store i (out i) init) := by
      simp [item, hbody i (by simp)]
    have later : ∀ j ∈ rest, body j (sl.look j (sl.store i (out i) init)) = .ok (out j) := by
      intro j hj
      have hij : i ≠ j := fun e => hi (e ▸ hj)
      rw [sl.look_store_of_ne _ _ hij]
      exact hbody j (List.mem_cons_of_mem _ hj)
    obtain ⟨final, hrun, hin, hout⟩ := ih hrest _ later
    refine ⟨final, ?_, ?_, ?_⟩
    · rw [List.foldlM_cons, first]
      exact hrun
    · intro j hj
      rcases List.mem_cons.1 hj with rfl | hj
      · rw [hout j hi, sl.look_store_self]
      · exact hin j hj
    · intro j hj
      rw [List.mem_cons, not_or] at hj
      rw [hout j hj.2, sl.look_store_of_ne _ _ (Ne.symm hj.1)]

/-- In a run that ends well every item has computed, and on its initial slice. -/
theorem body_of_foldlM (items : List (Fin n)) (hnd : items.Nodup) (init final : σ)
    (hrun : items.foldlM (fun st i => sl.item body i st) init = .ok final) :
    ∀ i ∈ items, ∃ c, body i (sl.look i init) = .ok c := by
  induction items generalizing init with
  | nil => simp
  | cons i rest ih =>
    obtain ⟨hi, hrest⟩ := List.nodup_cons.1 hnd
    rw [List.foldlM_cons] at hrun
    obtain ⟨next, hfirst, hrun⟩ := Outcome.bind_eq_ok_iff.1 hrun
    obtain ⟨c, hc, hnext⟩ := Outcome.bind_eq_ok_iff.1 hfirst
    have hnext : sl.store i c init = next := by simpa using hnext
    intro j hj
    rcases List.mem_cons.1 hj with rfl | hj
    · exact ⟨c, hc⟩
    · have hij : i ≠ j := fun e => hi (e ▸ hj)
      obtain ⟨d, hd⟩ := ih hrest next hrun j hj
      rw [← hnext, sl.look_store_of_ne _ _ hij] at hd
      exact ⟨d, hd⟩

end Slices

namespace Schedule

variable {σ α β : Type} {n m : Nat}

theorem order_nodup (s : Schedule) (n : Nat) : (s.order n).Nodup :=
  (s.order_perm n).nodup_iff.2 (List.nodup_finRange n)

theorem mem_order (s : Schedule) {n : Nat} (i : Fin n) : i ∈ s.order n :=
  (s.order_perm n).mem_iff.2 (List.mem_finRange i)

/-- **The crux**: in every order, each slice ends up as what its item makes of the initial one. -/
theorem run_returns (s : Schedule) {γ : Fin n → Type} (sl : Slices σ n γ)
    (body : (i : Fin n) → γ i → Outcome (γ i)) (init : σ) (out : (i : Fin n) → γ i)
    (hbody : ∀ i, body i (sl.look i init) = .ok (out i)) :
    ∃ final, s.run n (sl.item body) init = .ok final ∧ ∀ i, sl.look i final = out i := by
  obtain ⟨final, hrun, hin, -⟩ :=
    sl.foldlM_returns body out (s.order n) (s.order_nodup n) init fun i _ => hbody i
  exact ⟨final, hrun, fun i => hin i (s.mem_order i)⟩

/-- A run that ends well leaves in each slice what its item makes of the initial one. -/
theorem body_of_run (s : Schedule) {γ : Fin n → Type} (sl : Slices σ n γ)
    (body : (i : Fin n) → γ i → Outcome (γ i)) {init final : σ}
    (hrun : s.run n (sl.item body) init = .ok final) (i : Fin n) :
    body i (sl.look i init) = .ok (sl.look i final) := by
  have all := sl.body_of_foldlM body (s.order n) (s.order_nodup n) init final hrun
  choose out hout using fun i => all i (s.mem_order i)
  obtain ⟨final', hrun', hlook⟩ := s.run_returns sl body init out hout
  have same : final = final' := by
    have := hrun.symm.trans hrun'
    simpa using this
  rw [hout i, same, hlook i]

/-! ## One entry per item -/

/-- The entries of a vector as slices. -/
def entrySlices (α : Type) (n : Nat) : Slices (Vector α n) n (fun _ => α) where
  look i v := v.get i
  store i a v := v.put i a
  look_store_self i a v := Vector.get_put_self v i a
  look_store_of_ne a v h := Vector.get_put_of_ne v a h

/-- **Entries**: the result is the vector of what the items make of their own entries. -/
theorem each_eq_ok_iff (s : Schedule) {v w : Vector α n} {body : Fin n → α → Outcome α} :
    s.each v body = .ok w ↔ ∀ i, body i (v.get i) = .ok (w.get i) := by
  constructor
  · intro h i
    exact s.body_of_run (entrySlices α n) body h i
  · intro h
    obtain ⟨final, hrun, hlook⟩ := s.run_returns (entrySlices α n) body v w.get h
    have : final = w := Vector.ext_get hlook
    rw [← this]
    exact hrun

/-- Items that only compute always end well. -/
theorem each_pure (s : Schedule) (v : Vector α n) (f : Fin n → α → α) :
    s.each v (fun i a => return f i a) = .ok (Vector.ofFn fun i => f i (v.get i)) :=
  s.each_eq_ok_iff.2 fun i => by simp

end Schedule

/-! ## One segment of each of two buffers per item -/

namespace Segment

variable {α : Type} {n : Nat}

/-- Neither segment reaches into the other. -/
def Apart (g h : Segment n) : Prop :=
  g.start + g.length ≤ h.start ∨ h.start + h.length ≤ g.start

theorem start_add_lt (g : Segment n) (j : Fin g.length) : g.start + j < n := by
  have := g.fits
  omega

theorem sub_start_lt {g : Segment n} {j : Nat} (h : g.start ≤ j ∧ j < g.start + g.length) :
    j - g.start < g.length := by
  omega

theorem get_read (g : Segment n) (buf : Vector α n) (j : Fin g.length) :
    (g.read buf).get j = buf.get ⟨g.start + j, g.start_add_lt j⟩ := by
  rw [read, Vector.get_ofFn_eq]
  rfl

theorem get_write (g : Segment n) (buf : Vector α n) (part : Vector α g.length) (j : Fin n) :
    (g.write buf part).get j =
      if h : g.start ≤ j ∧ j < g.start + g.length then part.get ⟨j - g.start, sub_start_lt h⟩
      else buf.get j := by
  rw [write, Vector.get_ofFn_eq]
  rfl

theorem read_write_self (g : Segment n) (buf : Vector α n) (part : Vector α g.length) :
    g.read (g.write buf part) = part := by
  refine Vector.ext_get fun j => ?_
  rw [get_read, get_write, dif_pos ⟨by simp, by simp⟩]
  congr 1
  exact Fin.ext (by simp)

theorem read_write_of_apart {g h : Segment n} (buf : Vector α n) (part : Vector α g.length)
    (hgh : g.Apart h) : h.read (g.write buf part) = h.read buf := by
  refine Vector.ext_get fun j => ?_
  have hj := j.isLt
  rw [get_read, get_read, get_write, dif_neg]
  rintro ⟨h1, h2⟩
  simp only at h1 h2
  rcases hgh with h | h <;> omega

/-- The entries of a segment, cut from the list of all. -/
theorem toList_read (g : Segment n) (buf : Vector α n) :
    (g.read buf).toList = (buf.toList.drop g.start).take g.length := by
  have hfits := g.fits
  refine List.ext_getElem ?_ fun j h1 h2 => ?_
  · simp
    omega
  · simp [read]

end Segment

namespace Schedule

variable {α β : Type} {n m : Nat}

/-- Paired segments of two buffers as slices. -/
def pairSlices (α β : Type) (segs : List (Segment n × Segment m))
    (apart : ∀ i j : Fin segs.length, i ≠ j →
      (segs.get i).1.Apart (segs.get j).1 ∧ (segs.get i).2.Apart (segs.get j).2) :
    Slices (Vector α n × Vector β m) segs.length
      (fun i => Vector α (segs.get i).1.length × Vector β (segs.get i).2.length) where
  look i bufs := ((segs.get i).1.read bufs.1, (segs.get i).2.read bufs.2)
  store i parts bufs := ((segs.get i).1.write bufs.1 parts.1, (segs.get i).2.write bufs.2 parts.2)
  look_store_self i parts bufs := by
    rw [Segment.read_write_self, Segment.read_write_self]
  look_store_of_ne {i j} parts bufs h := by
    have hij := apart i j h
    simp only
    rw [Segment.read_write_of_apart _ _ hij.1, Segment.read_write_of_apart _ _ hij.2]

/-- **Segments**: each pair of segments ends up as what its item makes of the initial pair. -/
theorem onSegmentPairs_returns (s : Schedule) (segs : List (Segment n × Segment m))
    (apart : ∀ i j : Fin segs.length, i ≠ j →
      (segs.get i).1.Apart (segs.get j).1 ∧ (segs.get i).2.Apart (segs.get j).2)
    (bufs : Vector α n × Vector β m)
    (body : Nat → {p q : Nat} → Vector α p → Vector β q → Outcome (Vector α p × Vector β q))
    (out : (i : Fin segs.length) → Vector α (segs.get i).1.length × Vector β (segs.get i).2.length)
    (hbody : ∀ i : Fin segs.length,
      body i ((segs.get i).1.read bufs.1) ((segs.get i).2.read bufs.2) = .ok (out i)) :
    ∃ final, s.onSegmentPairs segs bufs body = .ok final ∧
      ∀ i : Fin segs.length, (segs.get i).1.read final.1 = (out i).1 ∧
        (segs.get i).2.read final.2 = (out i).2 := by
  obtain ⟨final, hrun, hlook⟩ := s.run_returns (pairSlices α β segs apart)
    (fun i parts => body i parts.1 parts.2) bufs out hbody
  refine ⟨final, hrun, fun i => ?_⟩
  have := hlook i
  exact ⟨congrArg Prod.fst this, congrArg Prod.snd this⟩

end Schedule

end Condensation
