import Wiring.Proofs.Catalog
import Wiring.Proofs.Survey.Suspension

/-!
# Where parameters come from

A parameter of a delegate has no step that provides its value; its name has to be in scope where it is
used. Parameters enter through the frames of the bodies around. A container whose declarations hold
no parameters finds none outside such bodies.

* `Provider.NamedIn` — the parameters within a provider have admissible names.
* `Known` — a provider found where `scope` lists the names bound by the bodies around.
* `Known.requests` — dependencies of known providers are known in the environment of the body.
* `singletonsAhead_known` — the singletons found below a delegate hold no parameter of a body.
-/

namespace Wiring

/-- A provider within a provider: itself, or within one of its parts. -/
inductive Provider.Holds : Provider → Provider → Prop
  | refl (p : Provider) : Provider.Holds p p
  | part {p q r : Provider} (hpart : q ∈ p.parts) (tail : Provider.Holds q r) : Provider.Holds p r

/-- Every parameter within the provider has a name that is admitted. -/
def Provider.NamedIn (admitted : String → Prop) (p : Provider) : Prop :=
  ∀ param name depth, p.Holds (.parameter param name depth) → admitted name

namespace Provider.NamedIn

variable {admitted : String → Prop} {p q : Provider}

theorem of_all (h : ∀ name, admitted name) : p.NamedIn admitted :=
  fun _ name _ _ => h name

theorem part (h : p.NamedIn admitted) (hpart : q ∈ p.parts) : q.NamedIn admitted :=
  fun param name depth hq => h param name depth (.part hpart hq)

theorem of_parts (hp : ∀ param name depth, p ≠ .parameter param name depth)
    (hparts : ∀ q ∈ p.parts, q.NamedIn admitted) : p.NamedIn admitted := by
  intro param name depth hholds
  cases hholds with
  | refl => exact absurd rfl (hp param name depth)
  | part hpart tail => exact hparts _ hpart param name depth tail

end Provider.NamedIn

/-- The name of a parameter. -/
def Provider.parameterName? : Provider → Option String
  | .parameter _ name _ => some name
  | _ => none

/-- Only a parameter has the identity of one. -/
theorem Provider.identity_ne_parameter {p : Provider} (h : p.parameterName? = none)
    (param : Parameter) (name : String) (depth : Nat) : p.identity ≠ .parameter param name depth := by
  cases p with
  | parameter => cases h
  | _ => exact Identity.noConfusion

theorem Provider.eq_parameter_of_identity {p : Provider} {param : Parameter} {name : String}
    {depth : Nat} (h : p.identity = .parameter param name depth) : p = .parameter param name depth := by
  cases p with
  | parameter =>
      cases h
      rfl
  | _ => cases h

/-- The declarations hold only parameters with admitted names. -/
def Catalog.NamedIn (admitted : String → Prop) (catalog : Catalog) : Prop :=
  ∀ p ∈ catalog.declared, p.NamedIn admitted

/-- Declarations without parts that are no parameters hold none. -/
theorem Catalog.NamedIn.of_flat {admitted : String → Prop} {catalog : Catalog}
    (h : catalog.declared.all (fun p => p.parts.isEmpty && p.parameterName?.isNone) = true) :
    catalog.NamedIn admitted := by
  intro p hp
  have hflat := List.all_eq_true.mp h p hp
  simp only [Bool.and_eq_true, List.isEmpty_iff, Option.isNone_iff_eq_none] at hflat
  refine .of_parts ?_ (by simp [hflat.1])
  rintro param name depth rfl
  cases hflat.2

/-- Making up and decorating providers brings no parameters in. -/
theorem Catalog.NamedIn.resolve {admitted : String → Prop} {catalog : Catalog} {ty : Ty}
    {p : Provider} (h : catalog.NamedIn admitted) (hresolve : catalog.resolve ty = .found p) :
    p.NamedIn admitted := by
  refine resolve_induction h (fun _ decorator _ p hp => ?_)
    (fun _ _ _ _ hinstance => ?_) (fun ty element items hitems => ?_)
    (fun ty result params isAsync => ?_) (fun ty value isAsync => ?_) hresolve
  · exact .of_parts (by simp) (by simpa [Provider.parts] using hp)
  · obtain ⟨bindings, -, rfl⟩ := Option.map_eq_some_iff.mp hinstance
    exact .of_parts (by simp) (by simp [Provider.parts])
  · exact .of_parts (by simp) (by simpa [Provider.parts] using hitems)
  · exact .of_parts (by simp) (by simp [Provider.parts])
  · exact .of_parts (by simp) (by simp [Provider.parts])

/-- A provider found where only parameters of the given scope are around, in a container that
declares only parameters with admitted names. -/
def Known (admitted scope : String → Prop) (p : Provider) : Prop :=
  p.NamedIn admitted ∨ ∃ param name depth, p = .parameter param name depth ∧ scope name

/-- An environment in which only such providers are found. -/
structure Environment.Knows (env : Environment) (admitted scope : String → Prop) : Prop where
  catalog : env.catalog.NamedIn admitted
  frames : ∀ frame ∈ env.frames, ∀ entry ∈ frame, Known admitted scope entry.2

namespace Known

variable {admitted scope wider : String → Prop} {p q : Provider}

theorem of_all (h : ∀ name, admitted name) : Known admitted scope p :=
  .inl (.of_all h)

theorem mono (h : Known admitted scope p) (hwider : ∀ name, scope name → wider name) :
    Known admitted wider p :=
  h.imp_right fun ⟨param, name, depth, hp, hname⟩ => ⟨param, name, depth, hp, hwider name hname⟩

theorem part (h : Known admitted scope p) (hpart : q ∈ p.parts) : Known admitted scope q := by
  rcases h with h | ⟨param, name, depth, rfl, -⟩
  · exact .inl (h.part hpart)
  · simp [Provider.parts] at hpart

/-- The name of a known parameter is admitted or in scope. -/
theorem parameter {param : Parameter} {name : String} {depth : Nat}
    (h : Known admitted scope (.parameter param name depth)) : admitted name ∨ scope name := by
  rcases h with h | ⟨param', name', depth', heq, hname⟩
  · exact .inl (h param name depth (.refl _))
  · cases heq
    exact .inr hname

/-- A known singleton is no parameter of a body. -/
theorem singleton (h : Known admitted scope p) (hp : p.lifetime = .single) : p.NamedIn admitted := by
  rcases h with h | ⟨param, name, depth, rfl, -⟩
  · exact h
  · cases hp

end Known

namespace Environment.Knows

variable {admitted scope wider : String → Prop} {env : Environment}

/-- Where every name is admitted, everything is known. -/
theorem of_all (h : ∀ name, admitted name) : env.Knows admitted scope :=
  ⟨fun _ _ => .of_all h, fun _ _ _ _ => .of_all h⟩

theorem mono (h : env.Knows admitted scope) (hwider : ∀ name, scope name → wider name) :
    env.Knows admitted wider :=
  ⟨h.catalog, fun frame hframe entry hentry => (h.frames frame hframe entry hentry).mono hwider⟩

theorem lookup (h : env.Knows admitted scope) {ty : Ty} {p : Provider}
    (hlookup : env.lookup ty = some p) : Known admitted scope p := by
  rcases lookup_cases hlookup with ⟨frame, hframe, entry, hentry, rfl⟩ | hresolve
  · exact h.frames frame hframe entry hentry
  · exact .inl (h.catalog.resolve hresolve)

theorem requests (h : env.Knows admitted scope) {p q : Provider} (hp : Known admitted scope p)
    {r : Request} (hr : r ∈ env.requests p) (hq : r.provider? = some q) : Known admitted scope q :=
  (requests_provider hr hq).elim h.lookup hp.part

theorem root (h : env.Knows admitted scope) : env.root.Knows admitted scope :=
  ⟨h.catalog, by simp [Environment.root, Environment.ofCatalog]⟩

theorem push (h : env.Knows admitted scope) {frame : Frame}
    (hframe : ∀ entry ∈ frame, Known admitted scope entry.2) :
    (env.push frame).Knows admitted scope := by
  refine ⟨h.catalog, fun frame' hmem => ?_⟩
  rcases List.mem_cons.mp hmem with rfl | hmem
  · exact hframe
  · exact h.frames frame' hmem

end Environment.Knows

/-! ### Frames -/

/-- The name of a delegate's parameter, with so many bodies around. -/
def parameterName (depth index : Nat) : String :=
  "param" ++ toString depth ++ "_" ++ toString index

/-- The names that the frame of a delegate binds. -/
def Frame.names (depth : Nat) (params : List Parameter) : List String :=
  (Frame.ofParams depth params).filterMap fun entry => entry.2.parameterName?

theorem Frame.mem_bind {depth index : Nat} {frame : Frame} {param : Parameter} {entry : Ty × Provider}
    (h : entry ∈ Frame.bind depth frame index param) :
    entry ∈ frame ∨ entry = (param.ty, .parameter param (parameterName depth index) depth) := by
  unfold bind at h
  split at h
  · exact .inl h
  · exact (List.mem_append.mp h).imp_right List.mem_singleton.mp

/-- The frame of a delegate binds parameters under their types, named by depth and position. -/
theorem Frame.eq_of_mem_ofParams {depth : Nat} {params : List Parameter} {entry : Ty × Provider}
    (h : entry ∈ Frame.ofParams depth params) :
    ∃ param index, entry = (param.ty, .parameter param (parameterName depth index) depth) := by
  have hparam : ∀ (indexed : List (Parameter × Nat)) (frame : Frame),
      (∀ entry ∈ frame, ∃ param index,
        entry = (param.ty, .parameter param (parameterName depth index) depth)) →
      ∀ entry ∈ indexed.foldl (fun frame entry => bind depth frame entry.2 entry.1) frame,
        ∃ param index, entry = (param.ty, .parameter param (parameterName depth index) depth) := by
    intro indexed
    induction indexed with
    | nil => exact fun frame hframe => hframe
    | cons first rest ih =>
        refine fun frame hframe => ih _ fun entry hentry => ?_
        rcases mem_bind hentry with hentry | rfl
        · exact hframe entry hentry
        · exact ⟨first.1, first.2, rfl⟩
  exact hparam params.zipIdx [] (by simp) entry h

/-- The frame of a delegate binds nothing but parameters. -/
theorem Frame.mem_ofParams {depth : Nat} {params : List Parameter} {entry : Ty × Provider}
    (h : entry ∈ Frame.ofParams depth params) :
    ∃ param name, entry.2 = .parameter param name depth ∧ name ∈ Frame.names depth params := by
  obtain ⟨param, index, rfl⟩ := eq_of_mem_ofParams h
  exact ⟨param, parameterName depth index, rfl, List.mem_filterMap.mpr ⟨_, h, rfl⟩⟩

/-- What the frame of a delegate binds is named by depth and position. -/
theorem Frame.exists_of_mem_names {depth : Nat} {params : List Parameter} {name : String}
    (h : name ∈ Frame.names depth params) : ∃ index, name = parameterName depth index := by
  obtain ⟨entry, hentry, hname⟩ := List.mem_filterMap.mp h
  obtain ⟨param, index, rfl⟩ := eq_of_mem_ofParams hentry
  cases hname
  exact ⟨index, rfl⟩

/-- The name of a delegate's parameter, at any depth and position. -/
def IsParameterName (name : String) : Prop := ∃ depth index, name = parameterName depth index

/-- The names that a body brings into scope, with so many bodies around, itself included. -/
def Provider.bodyNames (depth : Nat) : Provider → List String
  | .delegate _ _ params _ => Frame.names depth params
  | _ => []

/-- The environment of a body knows what was known, and the parameters of the body. -/
theorem Environment.Knows.enter {admitted scope : String → Prop} {env : Environment}
    (h : env.Knows admitted scope) (p : Provider) :
    (env.enter p).Knows admitted fun name => name ∈ p.bodyNames (env.depth + 1) ∨ scope name := by
  have hwider : env.Knows admitted fun name => name ∈ p.bodyNames (env.depth + 1) ∨ scope name :=
    h.mono fun _ => .inr
  unfold Environment.enter
  split
  · refine hwider.push fun entry hentry => ?_
    obtain ⟨param, name, hentry, hname⟩ := Frame.mem_ofParams hentry
    exact .inr ⟨param, name, _, hentry, .inl hname⟩
  · exact hwider.push (by simp)
  · split
    · exact hwider.root
    · exact hwider

/-- The environment of anything but a body knows just what was known. -/
theorem Environment.Knows.enter_value {admitted scope : String → Prop} {env : Environment}
    (h : env.Knows admitted scope) {p : Provider} (hp : p.bodyNames (env.depth + 1) = []) :
    (env.enter p).Knows admitted scope :=
  (h.enter p).mono fun name hname => by simpa [hp] using hname

/-- Where the parameters of delegates are in scope anyway, a body brings in nothing new. -/
theorem Environment.Knows.enter_closed {admitted scope : String → Prop} {env : Environment}
    (h : env.Knows admitted scope) (hscope : ∀ name, IsParameterName name → scope name)
    (p : Provider) : (env.enter p).Knows admitted scope := by
  refine (h.enter p).mono fun name hname => hname.elim (fun hname => hscope name ?_) id
  cases p with
  | delegate =>
      obtain ⟨index, rfl⟩ := Frame.exists_of_mem_names hname
      exact ⟨_, index, rfl⟩
  | _ => exact absurd hname List.not_mem_nil

/-! ### Singletons found by a survey -/

namespace Survey

/-- Requests met where any name is in scope. -/
def Anywhere (admitted : String → Prop) (env : Environment) (r : Request) : Prop :=
  env.Knows admitted (fun _ => True) ∧ ∀ q, r.provider? = some q → Known admitted (fun _ => True) q

theorem anywhere_handedOn {α : Type} (survey : Survey α) (admitted : String → Prop) :
    HandedOn survey (Anywhere admitted) := by
  rintro env r p _ _ ⟨henv, hr⟩ hp - below hbelow
  have hinside : (env.enter p).Knows admitted (fun _ => True) :=
    (henv.enter p).mono fun _ _ => trivial
  exact ⟨hinside, fun q hq => hinside.requests (hr p hp) hbelow hq⟩

/-- The singletons found below a delegate hold only admitted parameters. -/
theorem singletonsAhead_known {admitted scope : String → Prop} {maxDepth : Nat} {trigger : Trigger}
    {env : Environment} {delegate : Provider} {answers after : Answers} {ahead : List Provider}
    (henv : env.Knows admitted scope) (hdelegate : Known admitted scope delegate)
    (h : singletonsAhead maxDepth trigger env delegate answers = .ok (ahead, after)) :
    ∀ q ∈ ahead, q.lifetime = .single ∧ q.NamedIn admitted := by
  obtain ⟨entered, hvisits⟩ := run_sound h
  refine hvisits.invariant (P := Anywhere admitted)
    (I := fun found => ∀ q ∈ found.1, q.lifetime = .single ∧ q.NamedIn admitted)
    (anywhere_handedOn _ admitted) ?_ ?_ (by simp)
  · rintro env r p found goOn after ⟨-, hr⟩ hp hfound hjudge
    intro q hq
    rcases mem_of_suspendingSingletons_judge hjudge hq with hq | ⟨rfl, hsingle, -⟩
    · exact hfound q hq
    · exact ⟨hsingle, (hr _ hp).singleton hsingle⟩
  · refine ⟨henv.mono fun _ _ => trivial, fun q hq => ?_⟩
    cases hq
    exact hdelegate.mono fun _ _ => trivial

end Survey

end Wiring
