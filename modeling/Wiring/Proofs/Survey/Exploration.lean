import Wiring.Proofs.Survey.Run
import Wiring.Proofs.Unfolding.Exploration

/-!
# Surveys miss nothing

A survey answers an inquiry if its judgements do: what is found in the end shows that the provider
judged was as looked for, and that the survey went on wherever the inquiry does. Then the whole
survey answers it, for all that the walk passes over.

* `Judges` — the judgements of a survey answer an inquiry.
* `holds_of_run` — then so does a run.
-/

namespace Wiring.Survey

variable {α : Type}

/-- The judgements of a survey answer an inquiry. Once what was found is not `clean`, it stays so, and
a survey that is settled is not clean. -/
structure Judges (survey : Survey α) (I : Inquiry) (clean : α → Prop) : Prop where
  tracked : I.tracked = false
  absent : ∀ optional, I.allowsAbsent optional
  settled : ∀ found, survey.isSettled found = true → ¬ clean found
  before : ∀ p found goOn after, survey.judge p found = .ok (goOn, after) → clean after → clean found
  admits : ∀ p found goOn after isAsync, survey.judge p found = .ok (goOn, after) → clean after →
    I.admits isAsync p
  goesOn : ∀ p found after, survey.judge p found = .ok (false, after) → clean after → ¬ I.passes p

section

variable {survey : Survey α} {I : Inquiry} {clean : α → Prop} {catalog : Catalog}
  {among : Provider → Prop} {G : Place → Prop} {ctx : Context} {s s' : State α}

mutual

theorem Visits.clean_before (hjudges : Judges survey I clean) {ctx : Context} {r : Request}
    {s s' : State α} : Visits survey ctx r s s' → clean s'.found → clean s.found
  | .settled _, hclean => hclean
  | .absent _, hclean => hclean
  | .stopped _ hjudge, hclean => hjudges.before _ _ _ _ hjudge hclean
  | .before _ hjudge _ _, hclean => hjudges.before _ _ _ _ hjudge hclean
  | .inside _ hjudge _, hclean => by
      rw [State.entering_found] at hclean
      exact hjudges.before _ _ _ _ hjudge hclean
  | .entered _ hjudge below, hclean => by
      have hbelow := below.clean_before hjudges hclean
      rw [State.entering_found] at hbelow
      exact hjudges.before _ _ _ _ hjudge hbelow

theorem VisitsAll.clean_before (hjudges : Judges survey I clean) {ctx : Context}
    {requests : List Request} {s s' : State α} :
    VisitsAll survey ctx requests s s' → clean s'.found → clean s.found
  | .nil, hclean => hclean
  | .cons head tail, hclean =>
      head.clean_before hjudges (tail.clean_before hjudges hclean)

end

/-- The memory of a survey stands for places entered. -/
def Remembers (G : Place → Prop) (s : State α) : Prop :=
  ∀ identity ∈ s.entered, Noted false G (identity, true)

theorem Remembers.entering {x : Place} {p : Provider} {found : α} (h : Remembers G s)
    (henv : x.env = ctx.env) (hp : x.request.provider? = some p) :
    Remembers (Inquiry.entering G x) (State.entering { s with found } ctx p) := by
  intro identity hidentity
  have hold : ∀ identity ∈ s.entered, Noted false (Inquiry.entering G x) (identity, true) :=
    fun identity hmem => (h identity hmem).mono fun _ => .inr
  unfold State.entering at hidentity
  split at hidentity
  · rename_i hnear
    rcases List.mem_cons.mp hidentity with rfl | hidentity
    · exact ⟨x, p, .inl rfl, hp, rfl, by rwa [henv], fun h => by cases h⟩
    · exact hold identity hidentity
  · exact hold identity hidentity

mutual

/-- A survey that ends clean has explored what it was asked for: everything the way leads to was judged,
and what it passed over resembles something it has entered. The induction is on the derivation. -/
theorem Visits.explores (hcoherent : Coherent among) (hjudges : Judges survey I clean) {r : Request}
    {G : Place → Prop} {ctx : Context} {s s' : State α} (isAsync : Bool) :
    Visits survey ctx r s s' → (∀ w, G w → w.Belongs catalog among) →
      (Place.mk ctx.env isAsync r).Belongs catalog among → Deferred G ctx.env ctx.delegates →
      Remembers G s → clean s'.found →
      ∃ G', I.Grows catalog among G G' ∧ I.Explored G' ⟨ctx.env, isAsync, r⟩ ∧ Remembers G' s'
  | .settled hsettled, _, _, _, _, hclean => absurd hclean (hjudges.settled _ hsettled)
  | .absent hprovider, hG, _, _, hs, _ =>
      ⟨G, .refl hG, ⟨(Inquiry.holds_of_absent hprovider).mpr (hjudges.absent _),
        fun p hp => absurd (hprovider.symm.trans hp) (by simp)⟩, hs⟩
  | .stopped hprovider hjudge, hG, _, _, hs, hclean =>
      ⟨G, .refl hG, ⟨(Inquiry.holds_of_provider hprovider).mpr
        (hjudges.admits _ _ _ _ _ hjudge hclean), fun q hq hpasses => by
          cases hprovider.symm.trans hq
          exact absurd hpasses (hjudges.goesOn _ _ _ hjudge hclean)⟩, hs⟩
  -- Near the container, or inside itself, it resembles what was entered before.
  | .before (p := p) hprovider hjudge hnear hentered, hG, hx, _, hs, hclean => by
      obtain ⟨w, hw, hresembles⟩ :=
        (hs _ hentered).resembles hcoherent hG hx hprovider hnear fun h => by cases h
      rw [← hjudges.tracked] at hresembles
      exact ⟨G, .refl hG, ⟨(Inquiry.holds_of_provider hprovider).mpr
        (hjudges.admits _ _ _ _ _ hjudge hclean), fun _ _ _ => ⟨w, hw, hresembles⟩⟩, hs⟩
  | .inside (r := r) (p := p) hprovider hjudge hinside, hG, hx, hdeferred, hs, hclean => by
      obtain ⟨hdelegate, hmem⟩ := Bool.and_eq_true_iff.mp hinside
      rw [List.contains_iff_mem] at hmem
      obtain ⟨w, hw, hresembles⟩ := hdeferred.resembles hcoherent hG hx hprovider hdelegate hmem
      rw [State.entering_found] at hclean
      have hnear : ctx.env.isNear p = false :=
        Deferred.not_near (x := ⟨ctx.env, isAsync, r⟩) hdeferred hdelegate hmem
      rw [State.entering, if_neg (by simp [hnear])]
      exact ⟨G, .refl hG, ⟨(Inquiry.holds_of_provider hprovider).mpr
        (hjudges.admits _ _ _ _ _ hjudge hclean), fun _ _ _ => ⟨w, hw, hresembles⟩⟩, hs⟩
  -- It was judged before what is below, and a judgement that ends clean was clean before.
  | .entered (r := r) (p := p) hprovider hjudge below, hG, hx, hdeferred, hs, hclean => by
      have hnext : ∀ r' ∈ (ctx.env.enter p).requests p,
          (Place.mk ctx.env isAsync r).Next ⟨ctx.env.enter p, p.waits isAsync, r'⟩ :=
        fun r' hr' => .intro hprovider hr'
      have hbefore := below.clean_before hjudges hclean
      rw [State.entering_found] at hbefore
      have hdeferred' : Deferred (Inquiry.entering G ⟨ctx.env, isAsync, r⟩) (ctx.enter p).env
          (ctx.enter p).delegates :=
        Deferred.enter (x := ⟨ctx.env, isAsync, r⟩) (hdeferred.mono fun _ => .inr) (.inl rfl)
          hprovider
      obtain ⟨G', hgrows, hbelow, hs'⟩ := below.explores hcoherent hjudges (p.waits isAsync)
        (Inquiry.belongs_entering hG hx) (fun r' hr' => hx.next (hnext r' hr')) hdeferred'
        (hs.entering rfl hprovider) hclean
      refine ⟨G', hgrows.of_entering fun y hy => ?_, hgrows.explored
        ((Inquiry.holds_of_provider hprovider).mpr (hjudges.admits _ _ _ _ _ hjudge hbefore)), hs'⟩
      obtain ⟨hprovider', hr'⟩ := hy
      cases hprovider.symm.trans hprovider'
      exact hbelow _ hr'

theorem VisitsAll.explores (hcoherent : Coherent among) (hjudges : Judges survey I clean)
    {requests : List Request} {G : Place → Prop} {ctx : Context} {s s' : State α} (isAsync : Bool) :
    VisitsAll survey ctx requests s s' → (∀ w, G w → w.Belongs catalog among) →
      (∀ r ∈ requests, (Place.mk ctx.env isAsync r).Belongs catalog among) →
      Deferred G ctx.env ctx.delegates → Remembers G s → clean s'.found →
      ∃ G', I.Grows catalog among G G' ∧
        (∀ r ∈ requests, I.Explored G' ⟨ctx.env, isAsync, r⟩) ∧ Remembers G' s'
  | .nil, hG, _, _, hs, _ => ⟨G, .refl hG, by simp, hs⟩
  | .cons (r := r) head tail, hG, hx, hdeferred, hs, hclean => by
      obtain ⟨G₁, hgrows₁, hexplored, hs₁⟩ := head.explores hcoherent hjudges isAsync hG
        (hx r List.mem_cons_self) hdeferred hs (tail.clean_before hjudges hclean)
      obtain ⟨G₂, hgrows₂, hrest, hs₂⟩ := tail.explores hcoherent hjudges isAsync hgrows₁.belongs
        (fun r' hr' => hx r' (List.mem_cons_of_mem _ hr')) (hdeferred.mono hgrows₁.le) hs₁ hclean
      refine ⟨G₂, hgrows₁.trans hgrows₂, fun r' hr' => ?_, hs₂⟩
      rcases List.mem_cons.mp hr' with rfl | hr'
      · exact hexplored.mono hgrows₂.le
      · exact hrest r' hr'

end

/-- A survey that ends clean has shown what was looked for, everywhere. -/
theorem holds_of_run {env : Environment} {r : Request} {start found : α} {isAsync : Bool}
    (hcoherent : Coherent among) (hjudges : Judges survey I clean)
    (hwithin : (Place.mk env isAsync r).Within among) (hrun : survey.run env r start = .ok found)
    (hclean : clean found) :
    ∀ x, (Place.mk env isAsync r).LeadsThrough I.passes x → I.Holds x := by
  obtain ⟨entered, hvisits⟩ := run_sound hrun
  have hroot : (Place.mk env isAsync r).Belongs env.catalog among := ⟨rfl, hwithin⟩
  obtain ⟨G, hgrows, hexplored, -⟩ := hvisits.explores (G := fun _ => False) hcoherent hjudges
    isAsync (by simp) hroot (.none _) (fun _ hmem => by cases hmem) hclean
  exact fun x hx => hgrows.holds_of_leads hcoherent hroot hexplored hx

end

end Wiring.Survey
