/-
  Held matrix — the interface matrix that a session holds is never stale.

  1. **Order of the work** — the stages of the assembly give the same result in every order of
     their items, and a matrix is determined by its rows, so the assembled matrix does not depend
     on the schedule either (`assemble_of_assemble`).

  2. **The crux (`UpToDate`)** — a session is up to date when finalizing it changes nothing.  A
     session that was just finalized is (`finalize_again`), and so is one without a matrix.

  3. **Histories** — every request that changes something else drops the matrix, so every history
     leaves the session up to date.
-/
import Condensation.Proofs.Histories
import Condensation.Proofs.Composition
import Condensation.Proofs.CondensedSession

namespace Condensation

variable {S : Type}

/-! ## Order of the work -/

namespace FaceGraph

/-- The rows are laid out alike in every order. -/
theorem toRows_of_toRows [Zero S] [One S] [BEq S] {nf : Nat} {space : TraceSpace S nf}
    {graph : FaceGraph S nf space.dofsPerFace} {s : Schedule}
    {rows : InterfaceRows S space.numLocal} (h : graph.toRows space s = .ok rows) (s' : Schedule) :
    graph.toRows space s' = .ok rows := by
  obtain ⟨rows₁, h₁, hempty₁, hrow₁⟩ := toRows_returns space graph s
  obtain ⟨rows₂, h₂, hempty₂, hrow₂⟩ := toRows_returns space graph s'
  obtain rfl : rows₁ = rows := by simpa [h₁] using h
  have hmatrix : rows₂.matrix = rows₁.matrix :=
    Csr.ext_row fun r => (hrow₂ r).trans (hrow₁ r).symm
  obtain ⟨matrix₁, empty₁⟩ := rows₁
  obtain ⟨matrix₂, empty₂⟩ := rows₂
  obtain rfl : matrix₂ = matrix₁ := hmatrix
  obtain rfl : empty₂ = empty₁ := hempty₂.trans hempty₁.symm
  exact h₂

end FaceGraph

namespace Coupling

variable {disc : Discretization S}

theorem presolve_of_presolve [Zero S] [Sub S] [Mul S] [Div S] {c presolved : Coupling disc}
    {s : Schedule} {store : ElementStore S disc.ne disc.m}
    (h : c.presolve s store = .ok presolved) (s' : Schedule) :
    c.presolve s' store = .ok presolved := by
  obtain ⟨blocks, hblocks, hpresolved⟩ := Outcome.bind_eq_ok_iff.1 h
  have hblocks' := s'.each_eq_ok_iff.2 (s.each_eq_ok_iff.1 hblocks)
  rw [presolve, hblocks']
  exact hpresolved

theorem faceGraph_schedule [Zero S] [Add S] [Mul S] (c presolved : Coupling disc)
    (s s' : Schedule) : c.faceGraph s presolved = c.faceGraph s' presolved := by
  simp only [faceGraph, Schedule.each_pure]

/-- **Order of the work**: the assembled matrix is the same in every order. -/
theorem assemble_of_assemble [Zero S] [One S] [Add S] [Sub S] [Mul S] [Div S] [BEq S]
    {c : Coupling disc} {s : Schedule} {store : ElementStore S disc.ne disc.m}
    {rows : Assembled S disc.trace.numLocal} (h : c.assemble s store = .ok rows) (s' : Schedule) :
    c.assemble s' store = .ok rows := by
  obtain ⟨presolved, hpresolved, h⟩ := Outcome.bind_eq_ok_iff.1 h
  obtain ⟨graph, hgraph, h⟩ := Outcome.bind_eq_ok_iff.1 h
  obtain ⟨laid, hlaid, hrows⟩ := Outcome.bind_eq_ok_iff.1 h
  rw [faceGraph_schedule c presolved s s'] at hgraph
  rw [assemble, presolve_of_presolve hpresolved s', Outcome.ok_bind, hgraph, Outcome.ok_bind,
    FaceGraph.toRows_of_toRows hlaid s', Outcome.ok_bind]
  exact hrows

end Coupling

/-! ## Up to date -/

namespace Session

variable [Zero S] [One S] [Add S] [Sub S] [Mul S] [Div S] [Neg S] [BEq S] [LT S] [DecidableLT S]

/-- Finalizing again leaves the session, with the matrix that it holds, as it is. -/
def UpToDate (session : Session S) : Prop :=
  session.matrix ≠ none → ∀ s, ∃ summary,
    (session.finalizeProgram s .alone).runAlone = .ok (session, summary)

theorem upToDate_of_none {session : Session S} (h : session.matrix = none) :
    session.UpToDate := fun hne => absurd h hne

/-- A session that is up to date holds a matrix only if it is prepared. -/
theorem UpToDate.matrix_eq_none {session : Session S} (h : session.UpToDate)
    (hnone : session.reduction = none) : session.matrix = none := by
  by_contra hne
  obtain ⟨summary, hrun⟩ := h hne .inOrder
  obtain ⟨reduction, _, hsome, -⟩ := finalizeProgram_next hrun
  exact absurd (hnone.symm.trans hsome) (by simp)

/-- **The crux**: a session that was finalized is finalized to itself, in every order of the
    work. -/
theorem finalize_again {session next : Session S} {s : Schedule} {summary : Summary S}
    (h : (session.finalizeProgram s .alone).runAlone = .ok (next, summary)) (s' : Schedule) :
    (next.finalizeProgram s' .alone).runAlone = .ok (next, summary) := by
  simp only [finalizeProgram, Program.runAlone_bind, Program.liftM_eq, Program.runAlone_done,
    Program.pure_eq] at h
  obtain ⟨reduction, hreduction, h⟩ := Outcome.bind_eq_ok_iff.1 h
  obtain ⟨_, hcomplete, h⟩ := Outcome.bind_eq_ok_iff.1 h
  obtain ⟨rows, hrows, h⟩ := Outcome.bind_eq_ok_iff.1 h
  obtain ⟨asymmetry, hasymmetry, h⟩ := Outcome.bind_eq_ok_iff.1 h
  obtain ⟨matrix, hmatrix, h⟩ := Outcome.bind_eq_ok_iff.1 h
  obtain ⟨rfl, hsummary⟩ : { session with matrix := some matrix } = next ∧ _ = summary := by
    simpa using h
  have hagain := Coupling.assemble_of_assemble hrows s'
  -- the matrix that the session holds is not read
  have hprepared : ({ session with matrix := some matrix } : Session S).prepared =
    .ok reduction := hreduction
  simp only [finalizeProgram, Program.runAlone_bind, Program.liftM_eq, Program.runAlone_done,
    Program.pure_eq, hprepared, Outcome.ok_bind, hcomplete, hagain, hasymmetry, hmatrix, hsummary]

/-! ## Histories -/

/-- A request that replaces something leaves no matrix. -/
theorem Next.matrix_eq_none {session next : Session S} {op : Operation S}
    (h : session.Next op next) (hop : op.Replaces) : next.matrix = none := by
  cases h with
  | prepare | prepareAgain | assemble | assembleAll | reset | update => rfl
  | finalize | handOver | reduce | recover => exact absurd hop id

/-- Every request keeps a session up to date. -/
theorem Next.upToDate {session next : Session S} {op : Operation S} (h : session.Next op next)
    (hcurrent : session.UpToDate) : next.UpToDate := by
  cases h with
  | finalize made => exact fun _ s' => ⟨_, finalize_again made s'⟩
  | reduce | recover => exact hcurrent
  | prepare | prepareAgain | assemble | assembleAll | handOver | reset | update =>
    exact upToDate_of_none rfl

/-- **The result**: whatever was asked of a session with a single rank, in whatever order and with
    whatever outcome, a matrix that it holds is the one that finalizing would give now: the session
    is prepared, and finalizing it succeeds, in every order of the work, and leaves it, with the
    stored matrix, as it is.  A request that replaces what the matrix is made of drops it. -/
theorem held_matrix_current {disc : Discretization S} {options : Options S} {fresh : Session S}
    (hstart : start disc options = .ok fresh) (ops : List (Operation S)) :
    (∀ matrix, (fresh.after ops).matrix = some matrix →
      (∃ reduction, (fresh.after ops).reduction = some reduction) ∧
      ∀ s, ∃ summary,
        (fresh.after ops).perform (.finalize s) = (fresh.after ops, .ok (.assembly summary))) ∧
    ∀ op, op.Replaces → ∀ answer, ((fresh.after ops).perform op).2 = .ok answer →
      ((fresh.after ops).perform op).1.matrix = none := by
  obtain ⟨-, rfl⟩ := start_eq hstart
  have hcurrent : ((⟨disc, options, [], none, none⟩ : Session S).after ops).UpToDate :=
    after_keeps (fun _ _ _ hcurrent hop => hop.upToDate hcurrent)
      (fun _ _ hcurrent hnone => upToDate_of_none (hcurrent.matrix_eq_none hnone))
      (upToDate_of_none rfl) ops
  refine ⟨fun matrix hheld => ?_, fun op hop answer h => ?_⟩
  · have hne : ((⟨disc, options, [], none, none⟩ : Session S).after ops).matrix ≠ none := by
      simp [hheld]
    refine ⟨?_, fun s => ?_⟩
    · obtain ⟨summary, hrun⟩ := hcurrent hne .inOrder
      obtain ⟨reduction, _, hsome, -⟩ := finalizeProgram_next hrun
      exact ⟨reduction, hsome⟩
    · obtain ⟨summary, hrun⟩ := hcurrent hne s
      exact ⟨summary, Step.alone_of_ok (Step.map_rest_eq_ok_iff.2 ⟨summary, hrun, rfl⟩)⟩
  · rcases perform_cases _ op with ⟨next, answer', hnext, heq⟩ | ⟨-, hfails⟩
    · rw [heq]
      exact hnext.matrix_eq_none hop
    · exact absurd h (hfails answer)

/-- So it is for two elements after a history with a refused request. -/
theorem held_twoElements :
    ∃ final : Session Rat,
      final = (⟨twoElements, {}, [], none, none⟩ : Session Rat).after
        [.prepare .inOrder oppositeFaces [1], .finalize .inOrder, .assembleAll .inOrder #[2, 3],
          .finalize .inOrder, .reset, .prepareAgain .inOrder oppositeFaces,
          .assembleAll .inOrder #[2, 3], .finalize .backwards] ∧
      (∃ matrix, final.matrix = some matrix) ∧ (∃ reduction, final.reduction = some reduction) ∧
      ∀ s, ∃ summary, final.perform (.finalize s) = (final, .ok (.assembly summary)) := by
  have hstart : start twoElements ({} : Options Rat) = .ok ⟨twoElements, {}, [], none, none⟩ := rfl
  have hheld : ((⟨twoElements, {}, [], none, none⟩ : Session Rat).after
      [.prepare .inOrder oppositeFaces [1], .finalize .inOrder, .assembleAll .inOrder #[2, 3],
        .finalize .inOrder, .reset, .prepareAgain .inOrder oppositeFaces,
        .assembleAll .inOrder #[2, 3], .finalize .backwards]).matrix.isSome = true := by
    decide +kernel
  obtain ⟨matrix, hmatrix⟩ := Option.isSome_iff_exists.1 hheld
  exact ⟨_, rfl, ⟨matrix, hmatrix⟩, (held_matrix_current hstart _).1 matrix hmatrix⟩

end Session

end Condensation
