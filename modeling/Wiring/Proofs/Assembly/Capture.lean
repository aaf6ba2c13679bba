import Wiring.Proofs.Assembly.Topology

/-!
# Variables in assembled plans

A body may use the singletons that the plan around it has obtained, so variables are read across
plans. This module says where a variable that is read comes from.

* `planResolution_reads` — every variable read was filled earlier in its plan, or by a step of a plan
  around, or belongs to a delegate around. The step of a plan around was laid down before the one with
  the body, and stands before it, unless that plan waits and a scheduler has rearranged it.
* `planResolution_capture_unordered` — the scheduler that starts waiting early moves the creation of
  an asynchronous delegate before the wait for a singleton that its body reads: the delegate does not
  need that step.
-/

namespace Wiring

/-- The names of the parameters that a container was given among its sources, or that are held by what is
asked of it. No body binds these. -/
def Catalog.Gives (catalog : Catalog) (target : Provider) (name : String) : Prop :=
  ∃ p, (p ∈ catalog.declared ∨ p = target) ∧ ∃ param depth, p.Holds (.parameter param name depth)

/-- What is found in a container without such parameters holds none either. -/
theorem Catalog.NamedIn.of_lookup {catalog : Catalog} {ty : Ty} {target : Provider}
    (h : catalog.NamedIn fun _ => False) (hlookup : (Environment.ofCatalog catalog).lookup ty = some target) :
    target.NamedIn fun _ => False := by
  have hknows : (Environment.ofCatalog catalog).Knows (fun _ => False) fun _ => False :=
    ⟨h, by simp [Environment.ofCatalog]⟩
  refine (hknows.lookup hlookup).resolve_right ?_
  rintro ⟨_, _, _, _, hscope⟩
  exact hscope

theorem Catalog.NamedIn.not_gives {catalog : Catalog} {target : Provider}
    (hcatalog : catalog.NamedIn fun _ => False) (htarget : target.NamedIn fun _ => False)
    (name : String) : ¬ catalog.Gives target name := by
  rintro ⟨p, hp | rfl, param, depth, hholds⟩
  · exact hcatalog p hp param name depth hholds
  · exact htarget param name depth hholds

/-- Where a variable comes from that is read after the steps `before` of a plan, with these plans
around, in a tree whose root waits or does not. No step fills the parameters given. -/
inductive Assigned (scheduler : Scheduler) (isAsync : Bool) (given : String → Prop)
    (around : List (Plan × Step)) (before : List Step) (name : String) : Prop
  /-- An earlier step of the plan fills it. -/
  | here {d : Step} (hd : d ∈ before) (hassigned : d.statement.assigned? = some name)
  /-- A step of a plan around fills it. It was laid down before the step that holds the body, and stands
  before it, unless its plan waits and the scheduler rearranges such plans. -/
  | around {inner outer : List (Plan × Step)} {plan : Plan} {carrier d : Step}
      (haround : around = inner ++ (plan, carrier) :: outer) (hd : d ∈ plan.steps)
      (hassigned : d.statement.assigned? = some name) (hlaid : d.id < carrier.id)
      (hprecedes : scheduler = .emission ∨ canWait isAsync outer = false → plan.Precedes d carrier)
  /-- It is a delegate whose body is around, or a parameter of one. -/
  | bound {inner outer : List (Plan × Step)} {plan : Plan} {carrier : Step}
      (haround : around = inner ++ (plan, carrier) :: outer)
      (hname : name ∈ carrier.statement.bound (outer.length + 1))
  /-- It is a parameter given. -/
  | given (hname : given name)

/-- What a step reads was filled before it, given how its plan and the plans around came about. -/
theorem Emission.assigned {scheduler : Scheduler} {isAsync : Bool} {A B : Surroundings} {lo hi : Nat}
    {emitted arranged : List Step} {around : List (Plan × Step)}
    (h : Emission scheduler B lo emitted hi) (hB : B.Sound lo)
    (harranged : scheduler.Arranges (canWait isAsync around) emitted arranged)
    (hencloses : Encloses scheduler isAsync A around B) (hA : A.steps = []) (hdepth : A.depth = 0)
    {before after : List Step} {step : Step} (hsplit : arranged = before ++ step :: after)
    {name : String} (hname : name ∈ step.statement.reads) :
    Assigned scheduler isAsync A.named around before name := by
  obtain ⟨hperm, hordered⟩ := h.arranged hB harranged
  have hmem : step ∈ emitted := hperm.subset (by simp [hsplit])
  rcases h.reads hmem hname with ⟨need, hneed, d, hreaches, hassigned⟩ | hbound
  -- A step that `step` needs, perhaps through others, fills it: find where that step stands.
  · have hsound := h.sound hB
    have hnodup : (arranged.map Step.id).Nodup := by
      have := hsound.nodup
      simp only [Surroundings.after, List.map_append] at this
      exact (hperm.map Step.id).nodup_iff.mpr (List.nodup_append.mp this).2.1
    have hneeds : ∀ s ∈ arranged, ∀ d ∈ s.needs, d ∈ B.steps ∨ d ∈ arranged := by
      intro s hs d hd
      have hclosed := hsound.closed s (Surroundings.mem_after.mpr (.inr (hperm.subset hs))) d hd
      exact (Surroundings.mem_after.mp hclosed).imp_right fun hd => hperm.symm.subset hd
    have hstep : step.Reaches d := .need hneed hreaches
    rcases hordered.reaches hnodup hB.closed hneeds hstep hsplit with rfl | hd | hd
    -- A step does not need itself: what it needs is a smaller tree.
    · exact absurd hreaches.sizeOf_le (Nat.not_le.mpr (Step.sizeOf_need hneed))
    · rcases hencloses.steps d hd with hnone | ⟨_, plan, carrier, _, haround, hin, hlaid, hprecedes⟩
      · rw [hA] at hnone
        exact absurd hnone List.not_mem_nil
      · exact .around haround hin hassigned hlaid hprecedes
    · exact .here hd hassigned
  -- No step fills it.
  · rcases hencloses.named name hbound with hnone | ⟨inner, plan, carrier, outer, haround, hname⟩
    · exact .given hnone
    · rw [hdepth, Nat.zero_add] at hname
      exact .bound haround hname

/-- No variable is read in an assembled plan that nothing fills, unless it is called like a parameter
that the container was given among its sources. -/
theorem planResolution_reads (config : Config) (trigger : Trigger) (catalog : Catalog)
    (isAsync : Bool) (target : Provider) (plan : Plan)
    (h : planResolution config trigger (.ofCatalog catalog) isAsync target = .ok plan)
    (around : List (Plan × Step)) (nested : Plan) (hwithin : plan.Within around nested)
    (before after : List Step) (step : Step) (hsplit : nested.steps = before ++ step :: after) :
    ∀ name ∈ step.statement.reads,
      Assigned config.scheduler isAsync (catalog.Gives target) around before name := by
  let A : Surroundings := ⟨[], catalog.Gives target, 0⟩
  have hA : A.Sound 0 := Surroundings.sound_empty _ _ _
  have hcatalog : catalog.NamedIn (catalog.Gives target) :=
    fun p hp param _ depth hholds => ⟨p, .inl hp, param, depth, hholds⟩
  have htarget : target.NamedIn (catalog.Gives target) :=
    fun param _ depth hholds => ⟨target, .inr rfl, param, depth, hholds⟩
  obtain ⟨n, hplanned⟩ := Assembly.run_planned (catalog.Gives target) h
    ⟨fun _ h => h, by simp, .inl rfl⟩ ⟨hcatalog, by simp [Environment.ofCatalog]⟩ (.inl htarget)
  obtain ⟨B, lo, hi, hnested, hB, hencloses⟩ := hplanned.within hA hwithin
  cases hnested with
  | plan emission harranged =>
      intro name hname
      exact emission.assigned hB harranged hencloses rfl rfl hsplit hname

/-- The body of a delegate reads a singleton of the plan around, which does not wait. -/
theorem planResolution_reads_captured :
    let a : Ty := .plain "A"
    let b : Ty := .plain "B"
    let r : Ty := .plain "R"
    let needs (tys : List Ty) : List Parameter := tys.map fun ty => ⟨"", 0, ty, false⟩
    let catalog := ((({} : Declarations).addConstructor (.new a []) .single {})
      |>.addConstructor (.new b (needs [a])) .resolution {}
      |>.addConstructor (.new r (needs [a, .delegate [] b false])) .resolution {}).build.catalog
    ∃ target plan carrier body step rest, (∀ name, ¬ catalog.Gives target name) ∧
      planResolution {} .never (.ofCatalog catalog) false target = .ok plan ∧
      plan.Within [(plan, carrier)] body ∧ body.steps = [] ++ step :: rest ∧
        step.statement.reads = ["a_0_1"] ∧
        ∀ name ∈ step.statement.reads,
          Assigned .longestChain false (catalog.Gives target) [(plan, carrier)] [] name := by
  intro a b r needs catalog
  have hcatalog : catalog.NamedIn fun _ => False := .of_flat (by cbv)
  have hsummary : (((Environment.ofCatalog catalog).lookup r).bind fun target =>
      (planResolution {} .never (.ofCatalog catalog) false target).toOption).map
        (fun plan => plan.steps.map fun s => s.statement.body?.map fun body =>
          body.steps.map fun t => t.statement.reads) =
      some [none, some [["a_0_1"]], none] := by cbv
  obtain ⟨plan, hplan, hsteps⟩ := Option.map_eq_some_iff.mp hsummary
  obtain ⟨target, hlookup, hok⟩ := Option.bind_eq_some_iff.mp hplan
  have hok := Run.ok_of_toOption hok
  have htarget : target.NamedIn fun _ => False := hcatalog.of_lookup hlookup
  have hcarrier : some [["a_0_1"]] ∈ plan.steps.map fun s => s.statement.body?.map fun body =>
      body.steps.map fun t => t.statement.reads := by
    rw [hsteps]
    simp
  obtain ⟨carrier, hmem, hcarrier⟩ := List.mem_map.mp hcarrier
  obtain ⟨body, hbody, hreads⟩ := Option.map_eq_some_iff.mp hcarrier
  obtain ⟨step, rest, hbodySteps, hstep, -⟩ := List.map_eq_cons_iff.mp hreads
  have hwithin : plan.Within [(plan, carrier)] body := .body .root hmem hbody
  exact ⟨target, plan, carrier, body, step, rest, hcatalog.not_gives htarget, hok, hwithin,
    hbodySteps, hstep,
    planResolution_reads _ _ _ _ _ _ hok _ _ hwithin [] rest step hbodySteps⟩

/-- The reverse can happen where plans are rearranged: the body of an asynchronous delegate reads a
singleton that suspends, and the delegate is created before the wait for that singleton. -/
theorem planResolution_capture_unordered :
    let a : Ty := .plain "A"
    let b : Ty := .plain "B"
    let r : Ty := .plain "R"
    let needs (tys : List Ty) : List Parameter := tys.map fun ty => ⟨"", 0, ty, false⟩
    let env := ((({} : Declarations).addConstructor (.new a []) .single { isAsync := true })
      |>.addConstructor (.new b (needs [a])) .resolution {}
      |>.addConstructor (.new r (needs [a, .delegate [] b true])) .resolution {}).build
    ∃ target plan carrier body step rest, env.lookup r = some target ∧
      planResolution {} .never env true target = .ok plan ∧
      plan.Within [(plan, carrier)] body ∧ body.steps = [] ++ step :: rest ∧
        "a_0_2" ∈ step.statement.reads ∧
        ¬ Assigned .emission true (env.catalog.Gives target) [(plan, carrier)] [] "a_0_2" := by
  intro a b r needs env
  have hcatalog : env.catalog.NamedIn fun _ => False := .of_flat (by cbv)
  have hsummary : ((env.lookup r).bind fun target =>
      (planResolution {} .never env true target).toOption).map (fun plan => plan.steps.map fun s =>
        (s.id, s.statement.assigned?, s.statement.bound 1, s.statement.body?.map fun body =>
          body.steps.map fun t => t.statement.reads)) =
      some [(0, some "a_0_1", [], none), (3, some "func_b_0_3", ["func_b_0_3"], some [["a_0_2"]]),
        (1, some "a_0_2", [], none), (4, some "r_0_0", [], none)] := by cbv
  obtain ⟨plan, hplan, hsteps⟩ := Option.map_eq_some_iff.mp hsummary
  obtain ⟨target, hlookup, hok⟩ := Option.bind_eq_some_iff.mp hplan
  have hok := Run.ok_of_toOption hok
  obtain ⟨asking, rest₁, hplan₁, hasking, hrest₁⟩ := List.map_eq_cons_iff.mp hsteps
  obtain ⟨carrier, rest₂, rfl, hcarrier, hrest₂⟩ := List.map_eq_cons_iff.mp hrest₁
  obtain ⟨waiting, rest₃, rfl, hwaiting, hrest₃⟩ := List.map_eq_cons_iff.mp hrest₂
  obtain ⟨creating, rest₄, rfl, hcreating, hrest₄⟩ := List.map_eq_cons_iff.mp hrest₃
  obtain rfl := List.map_eq_nil_iff.mp hrest₄
  simp only [Prod.mk.injEq] at hasking hcarrier hwaiting hcreating
  obtain ⟨body, hbody, hreads⟩ := Option.map_eq_some_iff.mp hcarrier.2.2.2
  obtain ⟨step, rest, hbodySteps, hstep, -⟩ := List.map_eq_cons_iff.mp hreads
  refine ⟨target, plan, carrier, body, step, rest, hlookup, hok,
    .body .root (by simp [hplan₁]) hbody, hbodySteps, by simp [hstep], ?_⟩
  rintro (⟨hd, -⟩ | ⟨haround, hd, hassigned, -, hprecedes⟩ | ⟨haround, hname⟩ | hgiven)
  · exact absurd hd List.not_mem_nil
  -- Before the delegate there is only the step that asks for the singleton.
  · obtain ⟨rfl, heq⟩ | ⟨-, heq⟩ := List.singleton_eq_append_iff.mp haround
    swap
    · cases heq
    obtain ⟨heq, rfl⟩ := List.cons.inj heq
    cases heq
    obtain ⟨before, after, hsplit, hmem⟩ := hprecedes (.inl rfl)
    rw [hplan₁] at hsplit
    rcases before with _ | ⟨first, _ | ⟨second, before⟩⟩
    · exact absurd hmem List.not_mem_nil
    · obtain rfl := List.mem_singleton.mp hmem
      obtain ⟨rfl, -⟩ := List.cons.inj hsplit
      simp [hasking.2.1] at hassigned
    · obtain ⟨-, hrest⟩ := List.cons.inj hsplit
      obtain ⟨-, hrest⟩ := List.cons.inj hrest
      have hagain : carrier ∈ [waiting, creating] :=
        hrest ▸ List.mem_append_right before List.mem_cons_self
      rcases List.mem_pair.mp hagain with heq | heq
      · simp [heq, hwaiting.1] at hcarrier
      · simp [heq, hcreating.1] at hcarrier
  · obtain ⟨rfl, heq⟩ | ⟨-, heq⟩ := List.singleton_eq_append_iff.mp haround
    · obtain ⟨heq, rfl⟩ := List.cons.inj heq
      cases heq
      simp [hcarrier.2.2.1] at hname
    · cases heq
  · exact hcatalog.not_gives (hcatalog.of_lookup hlookup) _ hgiven

end Wiring
