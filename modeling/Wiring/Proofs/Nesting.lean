import Wiring.Proofs.Names
import Wiring.Proofs.Plan.Sharing
import Wiring.Proofs.Unfolding.Consistency

/-!
# The bodies around a place

Whatever is looked up inside a container is looked up in an environment that was reached from the
container's by entering providers. Its frames are those of the bodies around, and each names its
parameters by how many there are.

* `Environment.Inside` — an environment reached from another by entering providers.
* `Environment.Inside.within` — the environments of the plans in a tree are.
* `Environment.boundNames` — the names of the parameters that the bodies around bring into scope.
* `Environment.Inside.nodup_boundNames` — inside a container they all differ.
-/

namespace Wiring

/-- An environment reached from another by entering providers. -/
inductive Environment.Inside (start : Environment) : Environment → Prop
  | start : Inside start start
  | enter {env : Environment} (h : Inside start env) (p : Provider) : Inside start (env.enter p)

namespace Environment.Inside

variable {start env : Environment}

theorem catalog (h : start.Inside env) : env.catalog = start.catalog := by
  induction h with
  | start => rfl
  | enter _ p ih => exact (Environment.catalog_enter _ p).trans ih

/-- Inside a container the frames bind parameters only. -/
theorem bindsParameters (h : start.Inside env) (hstart : start.BindsParameters) :
    env.BindsParameters := by
  induction h with
  | start => exact hstart
  | enter _ p ih => exact ih.enter p

/-- The environment of a plan in the tree of a plan is inside with that of the whole. -/
theorem within (h : start.Inside env) (around : List (Plan × Step)) :
    start.Inside (env.within around) := by
  induction around with
  | nil => exact h
  | cons level around ih =>
      change start.Inside ((level.2.statement.provider?.map (env.within around).enter).getD
        (env.within around))
      cases level.2.statement.provider? with
      | none => exact ih
      | some p => exact ih.enter p

end Environment.Inside

/-! ### The names of parameters -/

/-- The name of a parameter tells the delegate's depth and the position. -/
theorem parameterName_inj {depth depth' index index' : Nat}
    (h : parameterName depth index = parameterName depth' index') :
    depth = depth' ∧ index = index' := by
  have hstem : ∀ n : Nat, EndsPlain ("param" ++ toString n ++ "_") := fun _ => .append _ rfl rfl
  obtain ⟨hstems, hindex⟩ := numbered_inj (hstem depth) (hstem depth') h
  have hdepths := append_right_cancel hstems
  exact ⟨(numbered_inj (by simp [EndsPlain]) (by simp [EndsPlain]) hdepths).2, hindex⟩

/-- The names of the parameters that a frame binds. -/
def Frame.boundNames (frame : Frame) : List String :=
  frame.filterMap fun entry => entry.2.parameterName?

/-- The names of the parameters that the bodies around bring into scope, innermost first. -/
def Environment.boundNames (env : Environment) : List String :=
  env.frames.flatMap Frame.boundNames

/-- A frame binds parameters named by its depth and by positions below a bound, each position once. -/
structure Frame.NamesUpTo (depth bound : Nat) (frame : Frame) : Prop where
  nodup : frame.boundNames.Nodup
  named : ∀ name ∈ frame.boundNames, ∃ index < bound, name = parameterName depth index

theorem Frame.NamesUpTo.bind {depth bound : Nat} {frame : Frame} (h : frame.NamesUpTo depth bound)
    (param : Parameter) : (frame.bind depth bound param).NamesUpTo depth (bound + 1) := by
  have hwider : ∀ name ∈ frame.boundNames, ∃ index < bound + 1, name = parameterName depth index :=
    fun name hname =>
      let ⟨index, hlt, heq⟩ := h.named name hname
      ⟨index, Nat.lt_succ_of_lt hlt, heq⟩
  unfold Frame.bind
  split
  · exact ⟨h.nodup, hwider⟩
  · have hnames : (frame ++ [(param.ty, Provider.parameter param (parameterName depth bound)
        depth)]).boundNames = frame.boundNames ++ [parameterName depth bound] := by
      simp [boundNames, Provider.parameterName?]
    change NamesUpTo depth (bound + 1) (frame ++ [(param.ty, .parameter param
      (parameterName depth bound) depth)])
    refine ⟨?_, ?_⟩
    · rw [hnames, List.nodup_append]
      refine ⟨h.nodup, List.nodup_singleton _, ?_⟩
      rintro name hname _ hnew rfl
      obtain ⟨index, hlt, heq⟩ := h.named name hname
      obtain rfl := (parameterName_inj (heq.symm.trans (List.mem_singleton.mp hnew))).2
      exact Nat.lt_irrefl _ hlt
    · rw [hnames]
      intro name hname
      rcases List.mem_append.mp hname with hname | hname
      · exact hwider name hname
      · exact ⟨bound, Nat.lt_succ_self bound, List.mem_singleton.mp hname⟩

/-- The frame of a delegate names every parameter that it binds by its position. -/
theorem Frame.namesUpTo_ofParams (depth : Nat) (params : List Parameter) :
    (Frame.ofParams depth params).NamesUpTo depth params.length := by
  have hfold : ∀ (rest : List Parameter) (bound : Nat) (frame : Frame),
      frame.NamesUpTo depth bound →
        ((rest.zipIdx bound).foldl (fun frame entry => bind depth frame entry.2 entry.1)
          frame).NamesUpTo depth (bound + rest.length) := by
    intro rest
    induction rest with
    | nil => exact fun _ _ hframe => hframe
    | cons param rest ih =>
        intro bound frame hframe
        have htail := ih (bound + 1) _ (hframe.bind param)
        rwa [Nat.add_right_comm] at htail
  have hempty : Frame.NamesUpTo depth 0 [] := ⟨List.nodup_nil, by simp [boundNames]⟩
  have hall := hfold params 0 [] hempty
  rwa [Nat.zero_add] at hall

/-- Each frame names its parameters by the number of frames from it on. -/
inductive Environment.Stacked : List Frame → Prop
  | nil : Stacked []
  | cons {frame : Frame} {rest : List Frame} {bound : Nat} (hrest : Stacked rest)
      (hframe : frame.NamesUpTo (rest.length + 1) bound) : Stacked (frame :: rest)

namespace Environment

theorem Stacked.enter {env : Environment} (h : Stacked env.frames) (p : Provider) :
    Stacked (env.enter p).frames := by
  unfold Environment.enter
  split
  · exact .cons h (Frame.namesUpTo_ofParams _ _)
  · have hempty : Frame.NamesUpTo (env.frames.length + 1) 0 [] :=
      ⟨List.nodup_nil, by simp [Frame.boundNames]⟩
    exact .cons h hempty
  · split
    · exact .nil
    · exact h

/-- Frames of different depths have no names in common, because the names of parameters tell the depth.
-/
theorem Stacked.nodup {frames : List Frame} (h : Stacked frames) :
    (frames.flatMap Frame.boundNames).Nodup ∧ ∀ name ∈ frames.flatMap Frame.boundNames,
      ∃ depth index, depth ≤ frames.length ∧ name = parameterName depth index := by
  induction h with
  | nil => exact ⟨List.nodup_nil, by simp⟩
  | @cons frame rest bound _ hframe ih =>
      obtain ⟨hnodup, hnamed⟩ := ih
      rw [List.flatMap_cons]
      refine ⟨List.nodup_append.mpr ⟨hframe.nodup, hnodup, ?_⟩, fun name hname => ?_⟩
      · rintro name hname _ hdeeper rfl
        obtain ⟨index, -, heq⟩ := hframe.named name hname
        obtain ⟨depth, index', hle, heq'⟩ := hnamed name hdeeper
        obtain rfl := (parameterName_inj (heq.symm.trans heq')).1
        exact Nat.not_succ_le_self _ hle
      · rcases List.mem_append.mp hname with hname | hname
        · obtain ⟨index, -, heq⟩ := hframe.named name hname
          exact ⟨rest.length + 1, index, Nat.le_refl _, heq⟩
        · obtain ⟨depth, index, hle, heq⟩ := hnamed name hname
          exact ⟨depth, index, Nat.le_succ_of_le hle, heq⟩

theorem Inside.stacked {start env : Environment} (h : start.Inside env)
    (hstart : start.isContainer = true) : Stacked env.frames := by
  induction h with
  | start =>
      rw [List.isEmpty_iff.mp hstart]
      exact .nil
  | enter _ p ih => exact ih.enter p

/-- Inside a container no two parameters in scope have one name. -/
theorem Inside.nodup_boundNames {start env : Environment} (h : start.Inside env)
    (hstart : start.isContainer = true) : env.boundNames.Nodup :=
  (h.stacked hstart).nodup.1

/-- Every name in scope is that of a delegate's parameter. -/
theorem Inside.isParameterName {start env : Environment} (h : start.Inside env)
    (hstart : start.isContainer = true) {name : String} (hname : name ∈ env.boundNames) :
    IsParameterName name :=
  let ⟨depth, index, _, heq⟩ := (h.stacked hstart).nodup.2 name hname
  ⟨depth, index, heq⟩

end Environment

end Wiring
