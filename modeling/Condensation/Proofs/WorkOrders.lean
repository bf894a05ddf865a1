/-
  Work orders — the buffers do not show in which order the items ran.

  1. **Cuts (`cut_chunksFrom`, `cut_ofOffsets`)** — chunks that divide a buffer, and the steps of an
     offset table, are segments between ascending marks: each one ends where the next one starts, so
     no two of them overlap.

  2. **Frames (`foldlM_keeps`)** — an item changes nothing but its slice, so what lies in no slice is
     at the end of a run as it was in the beginning.

  3. **The crux (`Rewritten.unique`)** — the inside of the segments and what lies outside of them are
     the whole buffer.  So there is one result only, and every order of the items has it.

  4. **The result (`dispatch_unordered`)** — this for one buffer cut into chunks, and for two buffers
     cut into chunks or at one offset table.
-/
import Condensation.Proofs.Scheduling

namespace Condensation

variable {σ α β : Type} {n m : Nat}

/-! ## Cuts -/

namespace Segment

/-- The position lies in the segment. -/
def Holds (g : Segment n) (j : Nat) : Prop := g.start ≤ j ∧ j < g.start + g.length

theorem Apart.symm {g h : Segment n} (hgh : g.Apart h) : h.Apart g :=
  Or.symm hgh

/-- So many segments, each from one mark to the next. -/
structure Cut (mark : Nat → Nat) (count : Nat) (segs : List (Segment n)) : Prop where
  count_eq : segs.length = count
  start_eq : ∀ i (h : i < segs.length), segs[i].start = mark i
  stop_eq : ∀ i (h : i < segs.length), segs[i].start + segs[i].length = mark (i + 1)
  apart : segs.Pairwise Apart

namespace Cut

variable {mark : Nat → Nat} {count : Nat} {segs : List (Segment n)}

/-- Marks that never decrease keep the segments between them apart. -/
theorem of_mono (mono : ∀ i j, i ≤ j → j ≤ count → mark i ≤ mark j) (count_eq : segs.length = count)
    (start_eq : ∀ i (h : i < segs.length), segs[i].start = mark i)
    (stop_eq : ∀ i (h : i < segs.length), segs[i].start + segs[i].length = mark (i + 1)) :
    Cut mark count segs := by
  refine ⟨count_eq, start_eq, stop_eq, List.pairwise_iff_getElem.2 fun i j hi hj hij => .inl ?_⟩
  rw [stop_eq i hi, start_eq j hj]
  exact mono (i + 1) j hij (by omega)

/-- Two segments of a cut do not overlap. -/
theorem apart_get (cut : Cut mark count segs) {i j : Nat} (hi : i < segs.length)
    (hj : j < segs.length) (hij : i ≠ j) : segs[i].Apart segs[j] := by
  have ordered := List.pairwise_iff_getElem.1 cut.apart
  rcases Nat.lt_or_gt_of_ne hij with h | h
  · exact ordered i j hi hj h
  · exact (ordered j i hj hi h).symm

theorem length_eq (cut : Cut mark count segs) {i : Nat} (h : i < segs.length) :
    segs[i].length = mark (i + 1) - mark i := by
  have hstart := cut.start_eq i h
  have hstop := cut.stop_eq i h
  omega

end Cut

theorem cut_nil (mark : Nat → Nat) : Cut (n := n) mark 0 [] :=
  ⟨rfl, by simp, by simp, .nil⟩

/-- Chunks from a position on that leave nothing over. -/
theorem chunksFrom_marks {len : Nat} (pos : 0 < len) (k start : Nat) (hn : start + k * len = n) :
    (chunksFrom n len pos start).length = k ∧
      ∀ i (h : i < (chunksFrom n len pos start).length),
        (chunksFrom n len pos start)[i].start = start + i * len ∧
          (chunksFrom n len pos start)[i].length = len := by
  induction k generalizing start with
  | zero =>
    rw [chunksFrom, dif_neg (by omega)]
    exact ⟨rfl, by simp⟩
  | succ k ih =>
    have hmul : (k + 1) * len = len + k * len := by rw [Nat.succ_mul, Nat.add_comm]
    obtain ⟨hlength, hall⟩ := ih (start + len) (by omega)
    have hfirst : min len (n - start) = len := by
      have := Nat.zero_le (k * len)
      omega
    rw [chunksFrom, dif_pos (by omega)]
    refine ⟨by rw [List.length_cons, hlength], fun i hi => ?_⟩
    cases i with
    | zero => exact ⟨by simp, hfirst⟩
    | succ i =>
      obtain ⟨hstart, hlen⟩ := hall i (by simpa using hi)
      rw [List.getElem_cons_succ]
      refine ⟨?_, hlen⟩
      rw [hstart, Nat.succ_mul]
      omega

/-- **Cuts** into chunks. -/
theorem cut_chunksFrom {len : Nat} (pos : 0 < len) (h : len ∣ n) :
    Cut (· * len) (n / len) (chunksFrom n len pos 0) := by
  obtain ⟨hlength, hall⟩ := chunksFrom_marks pos (n / len) 0
    (by rw [Nat.zero_add, Nat.div_mul_cancel h])
  refine .of_mono (fun i j hij _ => Nat.mul_le_mul_right len hij) hlength (fun i hi => ?_)
    fun i hi => ?_
  · rw [(hall i hi).1, Nat.zero_add]
  · rw [(hall i hi).1, (hall i hi).2, Nat.zero_add, Nat.succ_mul]

/-- Offsets that never decrease, and stay in the buffer, have segments between them. -/
theorem stepsFrom_marks (first : Nat) (rest : List Nat)
    (sorted : (first :: rest).Pairwise (· ≤ ·)) (fits : ∀ o ∈ first :: rest, o ≤ n) :
    ∃ segs : List (Segment n), stepsFrom n first (first :: rest) = some segs ∧
      segs.length = rest.length ∧ ∀ i (h : i < segs.length),
        segs[i].start = (first :: rest).getD i 0 ∧
          segs[i].start + segs[i].length = (first :: rest).getD (i + 1) 0 := by
  induction rest generalizing first with
  | nil => exact ⟨[], rfl, rfl, by simp⟩
  | cons next rest ih =>
    obtain ⟨hfirst, hsorted⟩ := List.pairwise_cons.1 sorted
    have hle : first ≤ next := hfirst next (by simp)
    have hend : first + (next - first) = next := by omega
    have hnext : next ≤ n := fits next (by simp)
    have hstep : first ≤ next ∧ first + (next - first) ≤ n := ⟨hle, by omega⟩
    obtain ⟨segs, hsegs, hlength, hall⟩ := ih next hsorted fun o ho => fits o (by simp [ho])
    refine ⟨⟨first, next - first, hstep.2⟩ :: segs, ?_, by simp [hlength], fun i hi => ?_⟩
    · have hrest : stepsFrom n (first + (next - first)) (next :: rest) = some segs := by
        rw [hend]
        exact hsegs
      rw [stepsFrom, dif_pos hstep, hrest]
      rfl
    · cases i with
      | zero => exact ⟨rfl, hend⟩
      | succ i =>
        obtain ⟨hstart, hstop⟩ := hall i (by simpa using hi)
        exact ⟨hstart, hstop⟩

/-- An entry of an ascending list is at most any later one. -/
theorem getD_mono {offsets : List Nat} (sorted : offsets.Pairwise (· ≤ ·)) {i j : Nat} (hij : i ≤ j)
    (hj : j < offsets.length) : offsets.getD i 0 ≤ offsets.getD j 0 := by
  have hi : i < offsets.length := Nat.lt_of_le_of_lt hij hj
  rw [← List.getElem_eq_getD (h := hi), ← List.getElem_eq_getD (h := hj)]
  rcases Nat.lt_or_eq_of_le hij with h | rfl
  · exact List.pairwise_iff_getElem.1 sorted i j hi hj h
  · exact Nat.le_refl _

/-- **Cuts** at an offset table. -/
theorem cut_ofOffsets {offsets : List Nat} (first : offsets.head? = some 0)
    (sorted : offsets.Pairwise (· ≤ ·)) (fits : ∀ o ∈ offsets, o ≤ n) :
    ∃ segs : List (Segment n), ofOffsets n offsets = some segs ∧
      Cut (offsets.getD · 0) (offsets.length - 1) segs := by
  obtain ⟨rest, rfl⟩ := List.head?_eq_some_iff.1 first
  obtain ⟨segs, hsegs, hlength, hall⟩ := stepsFrom_marks 0 rest sorted fits
  refine ⟨segs, hsegs, .of_mono (fun i j hij hj => getD_mono sorted hij ?_) hlength
    (fun i hi => (hall i hi).1) fun i hi => (hall i hi).2⟩
  rw [List.length_cons] at hj ⊢
  omega

end Segment

/-! ## Frames -/

namespace Slices

variable {τ : Type} {γ : Fin n → Type}

/-- What no item can change stays as it is. -/
theorem foldlM_keeps (sl : Slices σ n γ) (body : (i : Fin n) → γ i → Outcome (γ i)) (view : σ → τ)
    (keeps : ∀ i c st, view (sl.store i c st) = view st) (items : List (Fin n)) {init final : σ}
    (hrun : items.foldlM (fun st i => sl.item body i st) init = .ok final) :
    view final = view init := by
  induction items generalizing init with
  | nil => rw [Outcome.ok.inj hrun]
  | cons i rest ih =>
    rw [List.foldlM_cons] at hrun
    obtain ⟨next, hfirst, hrun⟩ := Outcome.bind_eq_ok_iff.1 hrun
    obtain ⟨c, -, hnext⟩ := Outcome.bind_eq_ok_iff.1 hfirst
    rw [ih hrun, ← Outcome.ok.inj hnext, keeps]

end Slices

namespace Segment

/-- What lies outside of a segment is not written. -/
theorem get_write_of_not_holds {g : Segment n} (buf : Vector α n) (part : Vector α g.length)
    {j : Fin n} (h : ¬ g.Holds j) : (g.write buf part).get j = buf.get j := by
  rw [get_write]
  exact dif_neg h

/-- A segment shows the entries at its positions. -/
theorem get_congr {g : Segment n} {v w : Vector α n} (h : g.read v = g.read w) {j : Fin n}
    (hj : g.Holds j) : v.get j = w.get j := by
  obtain ⟨hle, hlt⟩ := hj
  have hsame : g.start + (j.val - g.start) = j := by omega
  have hread := congrArg (fun part => part.get ⟨j - g.start, sub_start_lt ⟨hle, hlt⟩⟩) h
  simpa only [get_read, hsame] using hread

end Segment

/-! ## One result -/

/-- Every segment holds what `f` makes of its former entries, and all else is as before. -/
structure Rewritten (segs : List (Segment n)) (f : Nat → {len : Nat} → Vector α len → Vector α len)
    (buf final : Vector α n) : Prop where
  inside : ∀ i (h : i < segs.length), segs[i].read final = f i (segs[i].read buf)
  outside : ∀ j : Fin n, (∀ g ∈ segs, ¬ g.Holds j) → final.get j = buf.get j

/-- The same for two buffers, whose segments are rewritten in pairs. -/
structure PairRewritten (segs : List (Segment n × Segment m))
    (f : Nat → {p q : Nat} → Vector α p → Vector β q → Vector α p × Vector β q)
    (bufs final : Vector α n × Vector β m) : Prop where
  inside : ∀ i (h : i < segs.length), (segs[i].1.read final.1, segs[i].2.read final.2) =
    f i (segs[i].1.read bufs.1) (segs[i].2.read bufs.2)
  outside_first : ∀ j : Fin n, (∀ g ∈ segs, ¬ g.1.Holds j) → final.1.get j = bufs.1.get j
  outside_second : ∀ j : Fin m, (∀ g ∈ segs, ¬ g.2.Holds j) → final.2.get j = bufs.2.get j

/-- Buffers with the same entries in some segments and outside of them are the same. -/
theorem Segment.eq_of_cover {γ : Type} {items : List γ} (segment : γ → Segment n) {v w : Vector α n}
    (inside : ∀ g ∈ items, (segment g).read v = (segment g).read w)
    (outside : ∀ j : Fin n, (∀ g ∈ items, ¬ (segment g).Holds j) → v.get j = w.get j) : v = w := by
  refine Vector.ext_get fun j => ?_
  by_cases hj : ∃ g ∈ items, (segment g).Holds j
  · obtain ⟨g, hg, hholds⟩ := hj
    exact get_congr (inside g hg) hholds
  · exact outside j fun g hg hholds => hj ⟨g, hg, hholds⟩

/-- **The crux**: there is one such result. -/
theorem Rewritten.unique {segs : List (Segment n)}
    {f : Nat → {len : Nat} → Vector α len → Vector α len} {buf v w : Vector α n}
    (hv : Rewritten segs f buf v) (hw : Rewritten segs f buf w) : v = w := by
  have inside : ∀ g ∈ segs, g.read v = g.read w := by
    intro g hg
    obtain ⟨i, hi, rfl⟩ := List.getElem_of_mem hg
    exact (hv.inside i hi).trans (hw.inside i hi).symm
  refine Segment.eq_of_cover id inside fun j hj => ?_
  rw [hv.outside j hj, hw.outside j hj]

/-- The same for two buffers. -/
theorem PairRewritten.unique {segs : List (Segment n × Segment m)}
    {f : Nat → {p q : Nat} → Vector α p → Vector β q → Vector α p × Vector β q}
    {bufs v w : Vector α n × Vector β m} (hv : PairRewritten segs f bufs v)
    (hw : PairRewritten segs f bufs w) : v = w := by
  have inside : ∀ g ∈ segs, (g.1.read v.1, g.2.read v.2) = (g.1.read w.1, g.2.read w.2) := by
    intro g hg
    obtain ⟨i, hi, rfl⟩ := List.getElem_of_mem hg
    exact (hv.inside i hi).trans (hw.inside i hi).symm
  refine Prod.ext ?_ ?_
  · refine Segment.eq_of_cover Prod.fst (fun g hg => congrArg Prod.fst (inside g hg)) fun j hj => ?_
    rw [hv.outside_first j hj, hw.outside_first j hj]
  · refine Segment.eq_of_cover Prod.snd (fun g hg => congrArg Prod.snd (inside g hg)) fun j hj => ?_
    rw [hv.outside_second j hj, hw.outside_second j hj]

namespace Schedule

/-- Segments of one buffer as slices. -/
def segmentSlices (α : Type) (segs : List (Segment n))
    (apart : ∀ i j : Fin segs.length, i ≠ j → (segs.get i).Apart (segs.get j)) :
    Slices (Vector α n) segs.length (fun i => Vector α (segs.get i).length) where
  look i buf := (segs.get i).read buf
  store i part buf := (segs.get i).write buf part
  look_store_self _ _ _ := Segment.read_write_self _ _ _
  look_store_of_ne _ _ h := Segment.read_write_of_apart _ _ (apart _ _ h)

/-- Bodies that only compute rewrite the segments, in every order. -/
theorem onSegments_rewrites (s : Schedule) {mark : Nat → Nat} {count : Nat} {segs : List (Segment n)}
    (cut : Segment.Cut mark count segs) (f : Nat → {len : Nat} → Vector α len → Vector α len)
    (buf : Vector α n) :
    ∃ final, s.onSegments segs buf (fun i _ part => .ok (f i part)) = .ok final ∧
      Rewritten segs f buf final := by
  let slices := segmentSlices α segs fun i j hij =>
    cut.apart_get i.isLt j.isLt fun h => hij (Fin.ext h)
  obtain ⟨final, hrun, hinside⟩ := s.run_returns slices (fun i part => .ok (f i part)) buf
    (fun i => f i ((segs.get i).read buf)) fun i => rfl
  refine ⟨final, hrun, fun i h => hinside ⟨i, h⟩, fun j hj => ?_⟩
  exact slices.foldlM_keeps _ (fun buf => buf.get j)
    (fun i part buf => Segment.get_write_of_not_holds buf part (hj _ (segs.get_mem i))) _ hrun

/-- The same for two buffers. -/
theorem onSegmentPairs_rewrites (s : Schedule) {mark mark' : Nat → Nat} {count : Nat}
    {segs : List (Segment n)} {segs' : List (Segment m)} (cut : Segment.Cut mark count segs)
    (cut' : Segment.Cut mark' count segs')
    (f : Nat → {p q : Nat} → Vector α p → Vector β q → Vector α p × Vector β q)
    (bufs : Vector α n × Vector β m) :
    ∃ final, s.onSegmentPairs (segs.zip segs') bufs (fun i _ _ a b => .ok (f i a b)) = .ok final ∧
      PairRewritten (segs.zip segs') f bufs final := by
  have apart : ∀ i j : Fin (segs.zip segs').length, i ≠ j →
      ((segs.zip segs').get i).1.Apart ((segs.zip segs').get j).1 ∧
        ((segs.zip segs').get i).2.Apart ((segs.zip segs').get j).2 := by
    intro i j hij
    have hne : i.val ≠ j.val := fun h => hij (Fin.ext h)
    simp only [List.get_eq_getElem, List.getElem_zip]
    exact ⟨cut.apart_get _ _ hne, cut'.apart_get _ _ hne⟩
  let slices := pairSlices α β (segs.zip segs') apart
  obtain ⟨final, hrun, hinside⟩ := s.run_returns slices
    (fun i parts => .ok (f i parts.1 parts.2)) bufs
    (fun i => f i (((segs.zip segs').get i).1.read bufs.1) (((segs.zip segs').get i).2.read bufs.2))
    fun i => rfl
  refine ⟨final, hrun, fun i h => hinside ⟨i, h⟩, fun j hj => ?_, fun j hj => ?_⟩
  · exact slices.foldlM_keeps _ (fun bufs => bufs.1.get j)
      (fun i parts bufs => Segment.get_write_of_not_holds bufs.1 parts.1 (hj _ (List.get_mem _ i)))
      _ hrun
  · exact slices.foldlM_keeps _ (fun bufs => bufs.2.get j)
      (fun i parts bufs => Segment.get_write_of_not_holds bufs.2 parts.2 (hj _ (List.get_mem _ i)))
      _ hrun

/-! ## The result -/

/-- The items can run in every order, and the result is always the same, a good one. -/
def Unordered {τ : Type} (run : Schedule → Outcome τ) (good : τ → Prop) : Prop :=
  ∃ final, good final ∧ ∀ s, run s = .ok final

theorem Unordered.of_unique {τ : Type} {run : Schedule → Outcome τ} {good : τ → Prop}
    (runs : ∀ s, ∃ final, run s = .ok final ∧ good final)
    (unique : ∀ v w, good v → good w → v = w) : Unordered run good := by
  obtain ⟨final, -, hgood⟩ := runs .inOrder
  refine ⟨final, hgood, fun s => ?_⟩
  obtain ⟨final', hrun, hgood'⟩ := runs s
  rw [hrun, unique final' final hgood' hgood]

theorem Unordered.imp {τ : Type} {run : Schedule → Outcome τ} {good good' : τ → Prop}
    (h : Unordered run good) (himp : ∀ v, good v → good' v) : Unordered run good' := by
  obtain ⟨final, hgood, hruns⟩ := h
  exact ⟨final, himp final hgood, hruns⟩

/-- Chunks of one buffer. -/
theorem chunks_unordered (buf : Vector α n) {len : Nat} (h : len = 0 ∨ len ∣ n)
    (f : Nat → {len : Nat} → Vector α len → Vector α len) :
    ∃ segs, Segment.Cut (· * len) (n / len) segs ∧
      Unordered (fun s => s.chunks buf len fun i _ part => .ok (f i part))
        (Rewritten segs f buf) := by
  rcases Nat.eq_zero_or_pos len with rfl | pos
  · rw [Nat.div_zero]
    exact ⟨[], Segment.cut_nil _, buf, ⟨by simp, fun _ _ => rfl⟩, fun s => rfl⟩
  · have hdvd : len ∣ n := h.resolve_left (Nat.pos_iff_ne_zero.1 pos)
    have hcheck : Outcome.check (n % len = 0) = .ok () :=
      Outcome.check_eq_ok_iff.2 (Nat.mod_eq_zero_of_dvd hdvd)
    have cut := Segment.cut_chunksFrom pos hdvd
    refine ⟨_, cut, ?_⟩
    simp only [chunks, dif_pos pos, hcheck, Outcome.ok_bind]
    exact .of_unique (fun s => s.onSegments_rewrites cut f buf) fun v w hv hw => hv.unique hw

/-- Chunks of two buffers. -/
theorem chunkPairs_unordered (a : Vector α n) (b : Vector β m) {aLen bLen : Nat}
    (h : aLen = 0 ∨ bLen = 0 ∨ aLen ∣ n ∧ bLen ∣ m ∧ n / aLen = m / bLen)
    (f : Nat → {p q : Nat} → Vector α p → Vector β q → Vector α p × Vector β q) :
    ∃ segs segs', Segment.Cut (· * aLen) (min (n / aLen) (m / bLen)) segs ∧
      Segment.Cut (· * bLen) (min (n / aLen) (m / bLen)) segs' ∧
      Unordered (fun s => s.chunkPairs a aLen b bLen fun i _ _ x y => .ok (f i x y))
        (PairRewritten (segs.zip segs') f (a, b)) := by
  by_cases pos : 0 < aLen ∧ 0 < bLen
  · obtain ⟨hA, hB, hcount⟩ : aLen ∣ n ∧ bLen ∣ m ∧ n / aLen = m / bLen := by
      rcases h with h | h | h
      · omega
      · omega
      · exact h
    have hcheck : Outcome.check (n / aLen = m / bLen) = .ok () := Outcome.check_eq_ok_iff.2 hcount
    have cut := Segment.cut_chunksFrom pos.1 hA
    have cut' := Segment.cut_chunksFrom pos.2 hB
    rw [hcount] at cut
    rw [hcount, Nat.min_self]
    refine ⟨_, _, cut, cut', ?_⟩
    simp only [chunkPairs, dif_pos pos, hcheck, Outcome.ok_bind]
    exact .of_unique (fun s => s.onSegmentPairs_rewrites cut cut' f (a, b))
      fun v w hv hw => hv.unique hw
  · have hnone : min (n / aLen) (m / bLen) = 0 := by
      rcases Nat.eq_zero_or_pos aLen with rfl | hpos
      · simp
      · obtain rfl : bLen = 0 := by omega
        simp
    rw [hnone]
    refine ⟨[], [], Segment.cut_nil _, Segment.cut_nil _, (a, b),
      ⟨by simp, fun _ _ => rfl, fun _ _ => rfl⟩, fun s => ?_⟩
    show s.chunkPairs a aLen b bLen _ = _
    rw [chunkPairs, dif_neg pos]
    rfl

/-- Segments of two buffers. -/
theorem segmentPairs_unordered (a : Vector α n) (b : Vector β n) {offsets : List Nat}
    (first : offsets.head? = some 0) (sorted : offsets.Pairwise (· ≤ ·))
    (fits : ∀ o ∈ offsets, o ≤ n)
    (f : Nat → {p q : Nat} → Vector α p → Vector β q → Vector α p × Vector β q) :
    ∃ segs, Segment.ofOffsets n offsets = some segs ∧
      Segment.Cut (offsets.getD · 0) (offsets.length - 1) segs ∧
      Unordered (fun s => s.segmentPairs a b offsets fun i _ _ x y => .ok (f i x y))
        (PairRewritten (segs.zip segs) f (a, b)) := by
  obtain ⟨segs, hsegs, cut⟩ := Segment.cut_ofOffsets first sorted fits
  refine ⟨segs, hsegs, cut, ?_⟩
  simp only [segmentPairs, hsegs, Outcome.ofOption, Outcome.ok_bind]
  exact .of_unique (fun s => s.onSegmentPairs_rewrites cut cut f (a, b))
    fun v w hv hw => hv.unique hw

/-- **The result**: for bodies that compute the new slice of an item from its number and its own
    slice only.  A buffer cut into chunks that divide it, two buffers cut into equally many chunks, and
    two buffers cut at an offset table that starts at zero, ascends and fits them: the run ends well in
    every order of the items, always with the same contents.  Every slice is what its item makes of
    its former contents, and all else is untouched; so everything is where the chunks have length
    zero, and everything behind the last offset.  The steps of an offset table are consecutive slices
    that do not overlap. -/
theorem dispatch_unordered :
    (∀ (buf : Vector α n) (len : Nat) (f : Nat → {len : Nat} → Vector α len → Vector α len),
      len = 0 ∨ len ∣ n → ∃ segs, Segment.Cut (· * len) (n / len) segs ∧
        Unordered (fun s => s.chunks buf len fun i _ part => .ok (f i part))
          fun final => Rewritten segs f buf final ∧ (len = 0 → final = buf)) ∧
    (∀ (a : Vector α n) (b : Vector β m) (aLen bLen : Nat)
      (f : Nat → {p q : Nat} → Vector α p → Vector β q → Vector α p × Vector β q),
      aLen = 0 ∨ bLen = 0 ∨ aLen ∣ n ∧ bLen ∣ m ∧ n / aLen = m / bLen →
      ∃ segs segs', Segment.Cut (· * aLen) (min (n / aLen) (m / bLen)) segs ∧
        Segment.Cut (· * bLen) (min (n / aLen) (m / bLen)) segs' ∧
        Unordered (fun s => s.chunkPairs a aLen b bLen fun i _ _ x y => .ok (f i x y))
          fun final => PairRewritten (segs.zip segs') f (a, b) final ∧
            (aLen = 0 ∨ bLen = 0 → final = (a, b))) ∧
    ∀ (a : Vector α n) (b : Vector β n) (offsets : List Nat)
      (f : Nat → {p q : Nat} → Vector α p → Vector β q → Vector α p × Vector β q),
      offsets.head? = some 0 → offsets.Pairwise (· ≤ ·) → (∀ o ∈ offsets, o ≤ n) →
      ∃ segs, Segment.ofOffsets n offsets = some segs ∧
        Segment.Cut (offsets.getD · 0) (offsets.length - 1) segs ∧
        Unordered (fun s => s.segmentPairs a b offsets fun i _ _ x y => .ok (f i x y))
          fun final => PairRewritten (segs.zip segs) f (a, b) final ∧
            ∀ last, offsets.getLast? = some last → ∀ j : Fin n, last ≤ j →
              final.1.get j = a.get j ∧ final.2.get j = b.get j := by
  refine ⟨fun buf len f h => ?_, fun a b aLen bLen f h => ?_, fun a b offsets f first sorted fits => ?_⟩
  · obtain ⟨segs, cut, hruns⟩ := chunks_unordered buf h f
    refine ⟨segs, cut, hruns.imp fun final hfinal => ⟨hfinal, ?_⟩⟩
    rintro rfl
    obtain rfl : segs = [] := List.eq_nil_of_length_eq_zero (cut.count_eq.trans (Nat.div_zero n))
    exact Vector.ext_get fun j => hfinal.outside j (by simp)
  · obtain ⟨segs, segs', cut, cut', hruns⟩ := chunkPairs_unordered a b h f
    refine ⟨segs, segs', cut, cut', hruns.imp fun final hfinal => ⟨hfinal, fun hzero => ?_⟩⟩
    obtain rfl : segs = [] := by
      refine List.eq_nil_of_length_eq_zero (cut.count_eq.trans ?_)
      rcases hzero with rfl | rfl
      · simp
      · simp
    exact Prod.ext (Vector.ext_get fun j => hfinal.outside_first j (by simp))
      (Vector.ext_get fun j => hfinal.outside_second j (by simp))
  · obtain ⟨segs, hsegs, cut, hruns⟩ := segmentPairs_unordered a b first sorted fits f
    refine ⟨segs, hsegs, cut, hruns.imp fun final hfinal => ⟨hfinal, fun last hlast j hj => ?_⟩⟩
    have behind : ∀ g ∈ segs, ¬ g.Holds j := by
      intro g hg ⟨_, hlt⟩
      obtain ⟨i, hi, rfl⟩ := List.getElem_of_mem hg
      have hcount := cut.count_eq
      have hend := Segment.getD_mono sorted (i := i + 1) (j := offsets.length - 1) (by omega)
        (by omega)
      rw [← cut.stop_eq i hi, List.getD_eq_getElem?_getD, ← List.getLast?_eq_getElem?, hlast] at hend
      exact absurd (Nat.lt_of_lt_of_le hlt hend) (Nat.not_lt.2 hj)
    refine ⟨hfinal.outside_first j fun g hg => behind _ (List.of_mem_zip hg).1,
      hfinal.outside_second j fun g hg => behind _ (List.of_mem_zip hg).2⟩

/-! ### Four entries, and two beside them -/

/-- The number of the item, added to all entries of its slice. -/
def numbered (i : Nat) {len : Nat} (part : Vector Nat len) : Vector Nat len := part.map (· + i)

/-- So it is for four entries in two chunks, for these beside two entries in chunks of one, and for
    segments of no, two and one entries, which leave the last entry. -/
theorem dispatch_unordered_numbered :
    (∀ s : Schedule, s.chunks #v[5, 6, 7, 8] 2 (fun i _ part => .ok (numbered i part)) =
      .ok #v[5, 6, 8, 9]) ∧
    (∀ s : Schedule, s.chunkPairs #v[5, 6, 7, 8] 2 #v[1, 2] 1
      (fun i _ _ x y => .ok (numbered i x, numbered i y)) = .ok (#v[5, 6, 8, 9], #v[1, 3])) ∧
    ∀ s : Schedule, s.segmentPairs #v[5, 6, 7, 8] #v[1, 1, 1, 1] [0, 0, 2, 3]
      (fun i _ _ x y => .ok (numbered i x, numbered (2 * i) y)) =
        .ok (#v[6, 7, 9, 8], #v[3, 3, 5, 1]) := by
  obtain ⟨hchunks, hpairs, hsegments⟩ := dispatch_unordered (α := Nat) (β := Nat) (n := 4) (m := 2)
  obtain ⟨-, -, chunked, -, hchunked⟩ := hchunks #v[5, 6, 7, 8] 2 (fun i _ part => numbered i part)
    (.inr (by decide))
  obtain ⟨-, -, -, -, paired, -, hpaired⟩ := hpairs #v[5, 6, 7, 8] #v[1, 2] 2 1
    (fun i _ _ x y => (numbered i x, numbered i y)) (.inr (.inr (by decide)))
  obtain ⟨-, -, -, cut, -, hcut⟩ := hsegments #v[5, 6, 7, 8] #v[1, 1, 1, 1] [0, 0, 2, 3]
    (fun i _ _ x y => (numbered i x, numbered (2 * i) y)) rfl (by decide) (by decide)
  -- the order of the numbers is one of all orders
  refine ⟨fun s => ?_, fun s => ?_, fun s => ?_⟩
  · refine (hchunked s).trans ((hchunked .inOrder).symm.trans ?_)
    decide +kernel
  · refine (hpaired s).trans ((hpaired .inOrder).symm.trans ?_)
    decide +kernel
  · refine (hcut s).trans ((hcut .inOrder).symm.trans ?_)
    decide +kernel

end Schedule

end Condensation
