import Mathlib.Data.List.DropRight
import Mathlib.Data.List.Induction
import Wiring.Proofs.Typing

/-!
# Lookup is lexically scoped

Entering providers one after another nests bodies. A delegate's body binds the delegate's parameters, an
owned value's body binds nothing, and a singleton is outside of all bodies. A type is looked up from the
innermost body outwards, and in the container last.

* `Frame.find?_first` — of several parameters of one type a frame binds the first.
* `bodiesAround` — the bodies around after some providers were entered.
* `Environment.frames_entered` — the frames are those of the bodies around.
* `Declarations.entered_scoped` — what a type is resolved to after any providers were entered.
-/

namespace Wiring

/-! ### The frame of a delegate -/

namespace Frame

variable {depth : Nat} {ty : Ty} {params : List Parameter}

theorem find?_bind (depth : Nat) (frame : Frame) (index : Nat) (param : Parameter) (ty : Ty) :
    (frame.bind depth index param).find? ty = (frame.find? ty).or
      (if param.ty = ty then some (.parameter param (parameterName depth index) depth) else none) := by
  unfold bind
  split
  · rename_i hbound
    split
    · rename_i hty
      obtain ⟨entry, hentry, heq⟩ := List.any_eq_true.mp hbound
      have hsome : (frame.find? ty).isSome := by
        rw [find?, Option.isSome_map, List.find?_isSome]
        exact ⟨entry, hentry, by simpa [hty] using heq⟩
      obtain ⟨p, hp⟩ := Option.isSome_iff_exists.mp hsome
      rw [hp, Option.some_or]
    · rw [Option.or_none]
  · unfold find?
    rw [List.find?_append]
    cases List.find? (fun entry => decide (entry.1 = ty)) frame with
    | some entry => rfl
    | none => by_cases hty : param.ty = ty <;> simp [hty, parameterName]

/-- What a frame binds to a type, by a scan of the parameters. -/
theorem find?_ofParams_eq (depth : Nat) (params : List Parameter) (ty : Ty) :
    (ofParams depth params).find? ty = (params.zipIdx.find? fun entry => entry.1.ty = ty).map
      fun entry => .parameter entry.1 (parameterName depth entry.2) depth := by
  have hfold : ∀ (entries : List (Parameter × Nat)) (frame : Frame),
      (entries.foldl (fun frame entry => bind depth frame entry.2 entry.1) frame).find? ty =
        (frame.find? ty).or ((entries.find? fun entry => entry.1.ty = ty).map
          fun entry => .parameter entry.1 (parameterName depth entry.2) depth) := by
    intro entries
    induction entries with
    | nil => simp
    | cons entry rest ih =>
        intro frame
        rw [List.foldl_cons, ih, find?_bind, Option.or_assoc]
        by_cases hty : entry.1.ty = ty <;> simp [hty]
  exact hfold params.zipIdx []

/-- Of several parameters of one type the frame binds the first, named by depth and position. -/
theorem find?_first {i : Nat} {param : Parameter} (hi : params[i]? = some param)
    (hty : param.ty = ty) (hfirst : ∀ j < i, ∀ q, params[j]? = some q → q.ty ≠ ty) :
    (ofParams depth params).find? ty = some (.parameter param (parameterName depth i) depth) := by
  have hfind : params.zipIdx.find? (fun entry => entry.1.ty = ty) = some (param, i) := by
    obtain ⟨hlt, heq⟩ := List.getElem?_eq_some_iff.mp hi
    rw [List.find?_eq_some_iff_getElem]
    refine ⟨by simpa using hty, i, by simpa using hlt, by simp [heq], fun j hj => ?_⟩
    have hother := hfirst j hj _ (List.getElem?_eq_getElem (hj.trans hlt))
    simpa using hother
  rw [find?_ofParams_eq, hfind]
  rfl

/-- A type that no parameter has is not bound. -/
theorem find?_absent (h : ∀ q ∈ params, q.ty ≠ ty) : (ofParams depth params).find? ty = none := by
  rw [find?_eq_none, any_ofParams, List.any_eq_false]
  intro q hq
  simpa using h q hq

end Frame

/-! ### The bodies around -/

/-- Whether the dependencies of a provider are resolved in a body of its own. -/
def Provider.hasBody : Provider → Bool
  | .delegate .. | .owned .. => true
  | _ => false

/-- The parameters that the body of a provider binds. -/
def Provider.bodyParams : Provider → List Parameter
  | .delegate _ _ params _ => params
  | _ => []

/-- The bodies around after some providers were entered, outermost first: those of the delegates and
owned values entered since the last singleton. -/
def bodiesAround (entered : List Provider) : List Provider :=
  (entered.rtakeWhile fun p => p.lifetime ≠ .single).filter Provider.hasBody

theorem bodiesAround_concat (entered : List Provider) (p : Provider) :
    bodiesAround (entered ++ [p]) =
      if p.lifetime = .single then []
      else if p.hasBody then bodiesAround entered ++ [p] else bodiesAround entered := by
  unfold bodiesAround
  rw [List.rtakeWhile_concat]
  by_cases hsingle : p.lifetime = .single
  · simp [hsingle]
  · by_cases hbody : p.hasBody = true <;> simp [hsingle, hbody, List.filter_append]

/-- Bodies without a parameter of a type bind nothing to it, however deep they are. -/
theorem bodies_unbound {bodies : List Provider} {ty : Ty}
    (h : ∀ body ∈ bodies, ∀ q ∈ body.bodyParams, q.ty ≠ ty) {depth : Nat → Nat} :
    ∀ frame ∈ (bodies.mapIdx fun i body => Frame.ofParams (depth i) body.bodyParams).reverse,
      frame.find? ty = none := by
  intro frame hframe
  obtain ⟨i, hi, rfl⟩ := List.mem_mapIdx.mp (List.mem_reverse.mp hframe)
  exact Frame.find?_absent (h _ (List.getElem_mem hi))

namespace Environment

theorem enter_frames (env : Environment) (p : Provider) :
    (env.enter p).frames =
      if p.lifetime = .single then []
      else if p.hasBody then .ofParams (env.depth + 1) p.bodyParams :: env.frames else env.frames := by
  by_cases hsingle : p.lifetime = .single
  · rw [if_pos hsingle, enter_of_single env hsingle]
    rfl
  · rw [if_neg hsingle]
    cases p with
    | delegate | owned => rfl
    | _ =>
        unfold enter
        simp only [if_neg hsingle]
        rfl

/-- After providers were entered from a container, the frames are those of the bodies around. The
induction is on the last provider entered. -/
theorem frames_entered {env : Environment} (henv : env.frames = []) (entered : List Provider) :
    (entered.foldl enter env).frames =
      ((bodiesAround entered).mapIdx fun i body => Frame.ofParams (i + 1) body.bodyParams).reverse := by
  induction entered using List.reverseRecOn with
  | nil => exact henv
  | append_singleton entered p ih =>
      have hdepth : (entered.foldl enter env).depth = (bodiesAround entered).length := by
        rw [depth, ih, List.length_reverse, List.length_mapIdx]
      rw [List.foldl_append, List.foldl_cons, List.foldl_nil, enter_frames, bodiesAround_concat]
      split
      · rfl
      · split
        · rw [List.mapIdx_concat, List.reverse_append, ← ih, hdepth]
          rfl
        · exact ih

/-- A body that binds the type hides those around it. -/
theorem resolve_innermost {env : Environment} {ty : Ty} {inner outer : List Frame} {frame : Frame}
    {p : Provider} (hframes : env.frames = inner ++ frame :: outer)
    (hinner : ∀ f ∈ inner, f.find? ty = none) (hframe : frame.find? ty = some p) :
    env.resolve ty = .found p := by
  unfold resolve
  rw [hframes, List.findSome?_append, List.findSome?_eq_none_iff.mpr hinner, Option.none_or,
    List.findSome?_cons, hframe]

/-- Bodies that do not bind the type leave it to the container. -/
theorem resolve_outside {env : Environment} {ty : Ty} (h : ∀ f ∈ env.frames, f.find? ty = none) :
    env.resolve ty = env.catalog.resolve ty := by
  unfold resolve
  rw [List.findSome?_eq_none_iff.mpr h]

/-- Entering providers keeps the container. -/
theorem foldl_enter_catalog (env : Environment) (entered : List Provider) :
    (entered.foldl enter env).catalog = env.catalog := by
  induction entered using List.reverseRecOn with
  | nil => rfl
  | append_singleton entered p ih => rw [List.foldl_concat, catalog_enter, ih]

/-- Entering providers keeps what is bound of the type it is bound to. -/
theorem foldl_enter_isTyped {env : Environment} (h : env.IsTyped) (entered : List Provider) :
    (entered.foldl enter env).IsTyped := by
  induction entered using List.reverseRecOn with
  | nil => exact h
  | append_singleton entered p ih =>
      rw [List.foldl_concat]
      exact ih.enter p

end Environment

/-- Whatever providers were entered one after another from the container: a type is resolved to the
parameter of the innermost delegate that has one of the type, of several the first; its name tells how
many bodies there are up to that delegate, and its position. If no delegate around has one, the type is
resolved as in the container. -/
theorem Declarations.entered_scoped (ds : Declarations) (entered : List Provider) :
    let env := entered.foldl Environment.enter ds.build
    let bodies := bodiesAround entered
    env.depth = bodies.length ∧
    (∀ (ty : Ty) (outer : List Provider) (delegate : Provider) (inner : List Provider) (i : Nat)
        (param : Parameter), bodies = outer ++ delegate :: inner →
      (∀ body ∈ inner, ∀ q ∈ body.bodyParams, q.ty ≠ ty) →
      delegate.bodyParams[i]? = some param → param.ty = ty →
      (∀ j < i, ∀ q, delegate.bodyParams[j]? = some q → q.ty ≠ ty) →
      env.resolve ty = .found (.parameter param
        ("param" ++ toString (outer.length + 1) ++ "_" ++ toString i) (outer.length + 1))) ∧
    (∀ ty : Ty, (∀ body ∈ bodies, ∀ q ∈ body.bodyParams, q.ty ≠ ty) →
      env.resolve ty = ds.build.resolve ty) ∧
    ∀ (ty : Ty) (p : Provider), env.lookup ty = some p → p.ty = ty := by
  intro env bodies
  have hframes : env.frames =
      (bodies.mapIdx fun i body => Frame.ofParams (i + 1) body.bodyParams).reverse :=
    Environment.frames_entered rfl entered
  refine ⟨?_, ?_, ?_, ?_⟩
  · rw [Environment.depth, hframes, List.length_reverse, List.length_mapIdx]
  · intro ty outer delegate inner i param hbodies hinner hi hty hfirst
    rw [hbodies, List.mapIdx_append, List.mapIdx_cons, List.reverse_append, List.reverse_cons,
      List.append_assoc, List.singleton_append, Nat.zero_add] at hframes
    exact Environment.resolve_innermost hframes (bodies_unbound hinner)
      (Frame.find?_first hi hty hfirst)
  · intro ty hnone
    have hunbound : ∀ frame ∈ env.frames, frame.find? ty = none :=
      hframes ▸ bodies_unbound hnone
    rw [Environment.resolve_outside hunbound, Environment.foldl_enter_catalog]
    rfl
  · intro ty p hlookup
    have htyped := Environment.foldl_enter_isTyped (Environment.IsTyped.root ds.build) entered
    exact Environment.lookup_ty htyped hlookup

/-- A singleton hides the delegate entered before it; of the two after it, with an owned value between
them, the inner one has a string and only the outer one an integer, twice. -/
theorem Declarations.entered_scoped_nested :
    let int : Ty := .plain "int"
    let string : Ty := .plain "string"
    let clock : Ty := .plain "Clock"
    let service : Ty := .plain "Service"
    let body (params : List Parameter) : Provider :=
      .delegate (.delegate (params.map (·.ty)) service false) service params false
    let singleton : Provider := .construct (some 0) ⟨clock, .single, .new clock [], false, false, .none⟩
    let outer := body [⟨"count", 0, int, false⟩, ⟨"limit", 1, int, false⟩, ⟨"name", 2, string, false⟩]
    let inner := body [⟨"title", 0, string, false⟩]
    let owned : Provider := .owned (.owned service false) service false
    let ds := ({} : Declarations).addConstructor (.new clock []) .single {}
    let env := [body [⟨"time", 0, clock, false⟩], singleton, outer, owned, inner].foldl
      Environment.enter ds.build
    env.depth = 3 ∧
      env.resolve int = .found (.parameter ⟨"count", 0, int, false⟩ "param1_0" 1) ∧
      env.resolve string = .found (.parameter ⟨"title", 0, string, false⟩ "param3_0" 3) ∧
      env.resolve clock = ds.build.resolve clock := by
  intro int string clock service body singleton outer inner owned ds env
  let entered := [body [⟨"time", 0, clock, false⟩], singleton, outer, owned, inner]
  have hbodies : bodiesAround entered = [outer, owned, inner] := by rfl
  obtain ⟨hdepth, hbound, hfree, -⟩ := ds.entered_scoped entered
  rw [hbodies] at hdepth hbound hfree
  refine ⟨hdepth, ?_, ?_, ?_⟩
  · exact hbound int [] outer [owned, inner] 0 _ rfl (by decide) rfl rfl (by decide)
  · have hname : "param" ++ toString ([outer, owned].length + 1) ++ "_" ++ toString 0 = "param3_0" := by
      decide
    rw [← hname]
    exact hbound string [outer, owned] inner [] 0 _ rfl (by decide) rfl rfl (by decide)
  · exact hfree clock (by decide)

end Wiring
