import Wiring.Proofs.Check.Exactness

/-!
# What the check reports

Whatever a check reports is wrong somewhere below the root: a required type has no provider, a
provider leads directly to one of its identity, or something takes waiting for where nothing can
wait. That goes for reports of checks that end with an error, too.

* `Faults` — what is reported at a request, and why.
* `run_founded` — every report is about a request that the root leads to.
* `Place.IsStuck`, `run_reports` — where the check reports that something takes waiting for, a place
  below the root is stuck.
-/

namespace Wiring

/-- At a place where nothing can wait, what is requested takes waiting for. A delegate does not, only its
body may. -/
def Place.IsStuck (x : Place) (p : Provider) : Prop :=
  x.request.provider? = some p ∧ p.isAsync = true ∧ p.isDelegate = false ∧ x.isAsync = false

namespace Check

open Run

/-- What is reported at a request, and why: there is no single provider, or something is wrong with
entering it. -/
inductive Faults (c : Settings) (ctx : Context) (r : Request) : Diagnostic → Prop
  | absent {kind : DiagnosticKind} {candidates : Nat} (hprovider : r.provider? = none)
      (hrequired : r.optional = false) (hkind : kind = .missing ∨ kind = .ambiguous) :
      Faults c ctx r ⟨kind, c.root, r.ty, candidates, c.location⟩
  | faulty {p : Provider} {kind : DiagnosticKind} (hprovider : r.provider? = some p)
      (hfault : fault? ctx p = some kind) : Faults c ctx r ⟨kind, c.root, p.ty, 0, c.location⟩

/-- A diagnostic is about a request that the root leads to, on the way that the context tells. -/
def Founded (c : Settings) (root : Place) (d : Diagnostic) : Prop :=
  ∃ ctx r, root.Leads (ctx.place r) ∧ Follows root ctx (ctx.place r) ∧ Faults c ctx r d

/-- All reports so far are founded. -/
def State.Founded (c : Settings) (root : Place) (s : State) : Prop :=
  ∀ d ∈ s.reported, Check.Founded c root d

variable {c : Settings} {root : Place} {ctx : Context} {r : Request} {p : Provider}

theorem checkpoint_keeps : Keeps (State.Founded c root) (checkpoint c) := by
  refine .get_bind fun s => ?_
  split
  · exact .throw
  · exact .pure

theorem report_keeps {kind : DiagnosticKind} {ty : Ty} {candidates : Nat}
    (h : Founded c root ⟨kind, c.root, ty, candidates, c.location⟩) :
    Keeps (State.Founded c root) (report c kind ty candidates) := by
  intro s hs d hd
  rcases List.mem_append.mp hd with hd | hd
  · exact hs d hd
  · obtain rfl := List.mem_singleton.mp hd
    exact h

theorem reportUnresolved_keeps {env : Environment} {ty : Ty}
    (h : ∀ kind candidates, kind = .missing ∨ kind = .ambiguous →
      Founded c root ⟨kind, c.root, ty, candidates, c.location⟩) :
    Keeps (State.Founded c root) (reportUnresolved c env ty) := by
  refine .get_bind fun s => ?_
  split
  · exact .pure
  · refine .bind (fun _ hs => hs) fun _ _ _ _ => ?_
    split
    · exact report_keeps (h _ _ (.inr rfl))
    · exact report_keeps (h _ _ (.inl rfl))
    · exact report_keeps (h _ _ (.inl rfl))

theorem isFirstVisit_keeps : Keeps (State.Founded c root) (isFirstVisit ctx p) := by
  unfold isFirstVisit
  dsimp only
  split
  · refine .get_bind fun s => ?_
    split
    · exact .pure
    · exact .bind (fun _ hs => hs) fun _ _ _ _ => .pure
  · exact .pure

/-- Reports stay founded along the walk: each is about a place to which the unfolding leads, and tells
what is wrong there. -/
theorem visit_keeps {budget : Nat} (hleads : root.Leads (ctx.place r))
    (hfollows : Follows root ctx (ctx.place r)) :
    Keeps (State.Founded c root) (visit c budget ctx r) := by
  induction budget generalizing ctx r with
  | zero =>
      unfold visit
      exact checkpoint_keeps.bind fun _ _ _ _ => .throw
  | succ budget ih =>
      unfold visit
      refine checkpoint_keeps.bind fun _ _ _ _ => ?_
      split
      · rename_i hprovider
        split
        · exact .pure
        -- What is reported here is reported of the place that the walk has come to.
        · rename_i hoptional
          exact reportUnresolved_keeps fun kind candidates hkind =>
            ⟨ctx, r, hleads, hfollows, .absent hprovider (by simpa using hoptional) hkind⟩
      · rename_i p hp
        split
        · rename_i kind hfault
          exact report_keeps ⟨ctx, r, hleads, hfollows, .faulty hp hfault⟩
        · refine isFirstVisit_keeps.bind fun _ _ _ _ => ?_
          split
          · refine .forM fun r' hr' => ?_
            have hnext := (Context.next_iff hp).mpr ⟨r', hr', rfl⟩
            exact ih (hleads.tail hnext) (hfollows.enter hleads hp hnext)
          · exact .pure

/-- Every report is about a request that the root leads to. -/
theorem run_founded {env : Environment} {isAsync : Bool} {d : Diagnostic}
    (hd : d ∈ (run c env isAsync).diagnostics) :
    Founded c (Place.atRoot env c.root isAsync) d := by
  have hkeeps : Keeps (State.Founded c (Place.atRoot env c.root isAsync))
      (visit c (c.maxDepth + 1) (.atRoot env isAsync) (env.root.request c.root)) :=
    visit_keeps .refl fun _ hmem => by cases hmem
  have hfounded := hkeeps ⟨[], [], []⟩ fun _ hmem => by cases hmem
  unfold run at hd
  cases hrun : (visit c (c.maxDepth + 1) (.atRoot env isAsync)
      ((Context.atRoot env isAsync).env.request c.root)).run ⟨[], [], []⟩ with
  | ok _ s | error _ s =>
      simp only [hrun] at hd
      have hrun' := hrun
      change visit c (c.maxDepth + 1) (.atRoot env isAsync) (env.root.request c.root) ⟨[], [], []⟩ = _
        at hrun'
      rw [hrun'] at hfounded
      exact hfounded d hd

theorem isStuck_of_fault (hp : r.provider? = some p) (h : fault? ctx p = some .requiresAsync) :
    (ctx.place r).IsStuck p := by
  unfold fault? at h
  split at h
  · cases h
  · split at h
    · rename_i hasync
      simp only [Bool.and_eq_true, Bool.not_eq_true'] at hasync
      exact ⟨hp, hasync.1.1, hasync.2, hasync.1.2⟩
    · cases h

/-- Where a check reports that something requires asynchronous resolution, a place below the root is
stuck. -/
theorem run_reports {env : Environment} {isAsync : Bool} {d : Diagnostic}
    (hd : d ∈ (run c env isAsync).diagnostics) (hkind : d.kind = .requiresAsync) :
    ∃ x p, (Place.atRoot env c.root isAsync).Leads x ∧ x.IsStuck p ∧ d.offending = p.ty := by
  obtain ⟨ctx, r, hleads, -, hfaults⟩ := run_founded hd
  cases hfaults with
  | absent _ _ habsent => rcases habsent with rfl | rfl <;> cases hkind
  | @faulty p kind hp hfault =>
      exact ⟨_, p, hleads, isStuck_of_fault hp (hkind ▸ hfault), rfl⟩

end Check

end Wiring
