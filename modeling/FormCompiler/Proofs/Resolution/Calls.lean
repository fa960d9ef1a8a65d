import FormCompiler.Proofs.Resolution.Functions

/-! Calls: the arguments fit the parameters of what is called. A candidate is chosen by the types its
parameters have at the call; a generic one is instantiated only afterwards, and the instance turns out
to have just these types, since type expressions of modules keep their meaning. -/

namespace FormCompiler

open Check EntityTable List

namespace Program

variable {args ids : List ExprId} {p q : Program} {S : Solver} {lo hi : Nat} {argTypes explicit types : List Ty}
  {location : Location} {given : List (String × ExprId)} {r : CallTarget × Ty} {scope : ScopeId} {id object : EntityId}
  {typeArgs : List TypeExpr} {name : String}

private theorem Inv.inferTypeArgs (hI : p.Inv) {typeParams : List String} {params : List TypeExpr} {typeArgs : List Ty}
    (ha : ∀ τ ∈ argTypes, τ.Good p.entities) (h : inferTypeArgs p.entities typeParams params argTypes = some typeArgs) :
    ∀ τ ∈ typeArgs, τ.Good p.entities :=
  PassesDown.inferTypeArgs ⟨fun _ h => h,fun _ _ hk _ => (hI.objectOk hk).appliedArgs⟩ ha h

/-! ### Costs -/

private theorem Inv.conversionCost? (hI : p.Inv) {arg param : Ty} {r : Option Nat} (hg : arg.Good p.entities)
    (h : conversionCost? arg param p = .ok r q) :
    p.Calm q ∧ q.entities = p.entities ∧ (r.isSome = true → p.Below arg param) := by
  unfold FormCompiler.conversionCost? at h
  split at h
  · rename_i hc
    cases h
    refine ⟨.refl hI,rfl,fun _ => ?_⟩
    simp only [Bool.or_eq_true,decide_eq_true_eq] at hc
    rcases hc with rfl | rfl
    · exact .refl arg
    · exact hg.elim
  · split at h
    · rename_i sub sup _
      obtain ⟨m,he,hs⟩ := hI.distance? h
      exact ⟨m,he,fun hr => .inr ⟨sub,sup,rfl,rfl,hs.mp hr⟩⟩
    · cases h
      exact ⟨.refl hI,rfl,fun h => nomatch h⟩

private theorem Inv.totalCost? {args params : List Ty} {r : Option Nat} (hI : p.Inv)
    (hg : ∀ τ ∈ args, τ.Good p.entities) (hl : args.length = params.length) (h : totalCost? args params p = .ok r q) :
    p.Calm q ∧ (r.isSome = true → List.Forall₂ p.Below args params) := by
  induction args generalizing p params r with
  | nil =>
    cases length_eq_zero_iff.mp hl.symm
    cases h
    exact ⟨.refl hI,fun _ => .nil⟩
  | cons arg args ih =>
    cases params with
    | nil => simp at hl
    | cons param params =>
      obtain ⟨cost,p1,h1,h2⟩ := bind_ok.mp h
      obtain ⟨m1,he1,hc⟩ := hI.conversionCost? (hg arg (by simp)) h1
      cases cost with
      | none =>
        cases h2
        exact ⟨m1,by simp⟩
      | some cost =>
        obtain ⟨rest,h3,rfl⟩ := bind_pure_ok.mp h2
        obtain ⟨m2,hr⟩ := ih m1.inv (fun τ hτ => by rw [he1]; exact hg τ (by simp [hτ])) (by simpa using hl) h3
        refine ⟨m1.trans m2,fun hs => .cons (hc rfl) ?_⟩
        have hb := hr (by simpa using hs)
        refine hb.imp fun a b h => ?_
        simpa only [Below,he1] using h

/-! ### Candidates -/

/-- The parameter types a candidate has at a call, with its type arguments if it is generic. -/
inductive TakesAt (p : Program) (id : EntityId) (types : List Ty) : Option (List Ty) → Prop
  | plain {d} : p.entities.kind id = .function d → d.typeParams = [] → d.signature = .done →
      d.paramTypes = types → TakesAt p id types none
  | generic {d args} : p.entities.kind id = .function d → d.typeParams ≠ [] →
      (∀ τ ∈ args, τ.Good p.entities) → p.meanings? d.scope
        (d.params.map fun param => param.declared.substitute (d.typeParams.zip args)) = some types →
      TakesAt p id types (some args)

private theorem TakesAt.grows {args : Option (List Ty)} (h : p.TakesAt id types args) (hI : p.Inv) (hg : p.Grows q) :
    q.TakesAt id types args := by
  cases h with
  | plain hk ht hs hp =>
    obtain ⟨e,hke,ge⟩ := hg.function hk
    obtain ⟨h1,h2,_⟩ := ge.signature hs
    exact .plain hke (ge.typeParams.trans ht) h1 (h2.trans hp)
  | generic hk ht ha hm =>
    obtain ⟨e,hke,ge⟩ := hg.function hk
    refine .generic hke (by rw [ge.typeParams]; exact ht) (fun τ hτ => hg.good (ha τ hτ)) ?_
    rw [ge.scope,ge.params,ge.typeParams]
    exact hg.meanings? hI.scopes (hI.functionOk hk).scope hm

private theorem TakesAt.length {args : Option (List Ty)} (h : p.TakesAt id types args) (hI : p.Inv) {d : FunctionDef}
    (hk : p.entities.kind id = .function d) : types.length = d.params.length := by
  cases h with
  | plain hk' _ hs hp =>
    cases hk.symm.trans hk'
    have := meanings?_length ((hI.functionOk hk).signed hs).types
    simpa [hp] using this
  | generic hk' _ _ hm =>
    cases hk.symm.trans hk'
    simpa using meanings?_length hm

private theorem Inv.candidateTypes (hS : S.Sound) (hI : p.Inv) {d : FunctionDef}
    {r : Option (List Ty × Option (List Ty))} (hk : p.entities.kind id = .function d)
    (ha : ∀ τ ∈ argTypes, τ.Good p.entities) (he : ∀ τ ∈ explicit, τ.Good p.entities)
    (h : S.candidateTypes id d argTypes explicit p = .ok r q) :
    p.Moves 0 0 q ∧ ∀ types args, r = some (types, args) → q.TakesAt id types args := by
  unfold Solver.candidateTypes at h
  by_cases hgen : d.isGeneric = true
  · have hne : d.typeParams ≠ [] := by simpa [FunctionDef.isGeneric] using hgen
    simp only [hgen,if_true] at h
    have h1 := get_bind_ok.mp h
    generalize hta : (if explicit.isEmpty then
        FormCompiler.inferTypeArgs p.entities d.typeParams (d.params.map (·.declared)) argTypes
      else if explicit.length = d.typeParams.length then some explicit else none) = typeArgs? at h1
    cases typeArgs? with
    | none =>
      cases h1
      exact ⟨.refl hI,by simp⟩
    | some typeArgs =>
      obtain ⟨types,h2,rfl⟩ := bind_pure_ok.mp h1
      have hgood : ∀ τ ∈ typeArgs, τ.Good p.entities := by
        split at hta
        · exact hI.inferTypeArgs ha hta
        · split at hta
          · cases hta
            exact he
          · cases hta
      have ho := hI.functionOk hk
      have hsub : ∀ x ∈ d.typeParams.zip typeArgs, x.2.Good p.entities := fun x hx => hgood x.2 (of_mem_zip hx).2
      obtain ⟨m,_,hmean⟩ := hI.resolveTypes hS _ (by
        intro t ht
        simp only [map_map,mem_map,Function.comp_apply] at ht
        obtain ⟨param,hparam,rfl⟩ := ht
        exact (ho.params param hparam).substitute hsub) h2
      refine ⟨m.moves,?_⟩
      rintro _ _ ⟨⟩
      refine .generic ((m.functions id d).mpr hk) hne (fun τ hτ => m.grows.good (hgood τ hτ)) ?_
      simpa [Function.comp_def] using hmean ho.scope
  · have hplain : d.typeParams = [] := by simpa [FunctionDef.isGeneric] using hgen
    simp only [hgen,Bool.false_eq_true,if_false] at h
    split at h
    · obtain ⟨_,p1,h1,h2⟩ := bind_ok.mp h
      obtain ⟨m,_,e,hke,hsig,_⟩ := hI.resolveSignature hS hk hplain h1
      obtain ⟨_,_,h3,h4⟩ := bind_ok.mp h2
      obtain ⟨rfl,rfl⟩ := Check.function?_ok.mp h3
      cases h4
      obtain ⟨e',hke',ge⟩ := m.grows.function hk
      cases hke.symm.trans hke'
      refine ⟨m,?_⟩
      rintro _ _ ⟨⟩
      exact .plain hke (ge.typeParams.trans hplain) hsig (by simp [function?_eq_some.mpr hke])
    · cases h
      exact ⟨.refl hI,by simp⟩

def Accepts (p : Program) (argTypes : List Ty) (v : Viable) : Prop :=
  ∃ types, p.TakesAt v.id types v.typeArgs ∧ List.Forall₂ p.Below argTypes types

private theorem Accepts.grows {v : Viable} (h : p.Accepts argTypes v) (hI : p.Inv) (hg : p.Grows q) :
    q.Accepts argTypes v := by
  obtain ⟨types,ht,hb⟩ := h
  exact ⟨types,ht.grows hI hg,hb.imp fun _ _ => hg.below⟩

private theorem Inv.score? (hS : S.Sound) (hI : p.Inv) {d : FunctionDef} {r : Option Viable}
    (hk : p.entities.kind id = .function d) (hl : d.params.length = argTypes.length)
    (ha : ∀ τ ∈ argTypes, τ.Good p.entities) (he : ∀ τ ∈ explicit, τ.Good p.entities)
    (h : S.score? argTypes explicit id p = .ok r q) : p.Moves 0 0 q ∧ ∀ v, r = some v → q.Accepts argTypes v := by
  obtain ⟨_,_,h1,h2⟩ := bind_ok.mp h
  obtain ⟨rfl,rfl⟩ := Check.function?_ok.mp h1
  simp only [function?_eq_some.mpr hk] at h2
  obtain ⟨c,p1,h3,h4⟩ := bind_ok.mp h2
  obtain ⟨m1,htakes⟩ := hI.candidateTypes hS hk ha he h3
  cases c with
  | none =>
    cases h4
    exact ⟨m1,by simp⟩
  | some c =>
    obtain ⟨types,typeArgs⟩ := c
    obtain ⟨cost,h5,rfl⟩ := bind_pure_ok.mp h4
    have ht := htakes types typeArgs rfl
    obtain ⟨e,hke,ge⟩ := m1.grows.function hk
    have hlen : argTypes.length = types.length := by rw [ht.length m1.inv hke,ge.params,hl]
    obtain ⟨m2,hb⟩ := m1.inv.totalCost? (fun τ hτ => m1.grows.good (ha τ hτ)) hlen h5
    refine ⟨m1.trans m2.moves,fun v hv => ?_⟩
    obtain ⟨cost,hcost,rfl⟩ := Option.map_eq_some_iff.mp hv
    refine ⟨types,ht.grows m1.inv m2.grows,?_⟩
    exact (hb (by simp [hcost])).imp fun _ _ => m2.grows.below

private theorem Inv.viable (hS : S.Sound) {ids : List EntityId} {vs : List Viable} (hI : p.Inv)
    (hk : ∀ id ∈ ids, ∃ d, p.entities.kind id = .function d ∧ d.params.length = argTypes.length)
    (ha : ∀ τ ∈ argTypes, τ.Good p.entities) (he : ∀ τ ∈ explicit, τ.Good p.entities)
    (h : S.viable argTypes explicit ids p = .ok vs q) : p.Moves 0 0 q ∧ ∀ v ∈ vs, q.Accepts argTypes v := by
  induction ids generalizing p vs with
  | nil =>
    cases h
    exact ⟨.refl hI,by simp⟩
  | cons id ids ih =>
    obtain ⟨r,p1,h1,h2⟩ := bind_ok.mp h
    obtain ⟨d,hkd,hl⟩ := hk id (by simp)
    obtain ⟨m1,hv⟩ := hI.score? hS hkd hl ha he h1
    have hk1 : ∀ j ∈ ids, ∃ e, p1.entities.kind j = .function e ∧ e.params.length = argTypes.length := by
      intro j hj
      obtain ⟨c,hc,hlc⟩ := hk j (by simp [hj])
      obtain ⟨e,hke,ge⟩ := m1.grows.function hc
      exact ⟨e,hke,by rw [ge.params,hlc]⟩
    have ha1 : ∀ τ ∈ argTypes, τ.Good p1.entities := fun τ hτ => m1.grows.good (ha τ hτ)
    have he1 : ∀ τ ∈ explicit, τ.Good p1.entities := fun τ hτ => m1.grows.good (he τ hτ)
    cases r with
    | none =>
      obtain ⟨m2,hvs⟩ := ih m1.inv hk1 ha1 he1 h2
      exact ⟨m1.trans m2,hvs⟩
    | some v =>
      obtain ⟨rest,h3,rfl⟩ := bind_pure_ok.mp h2
      obtain ⟨m2,hvs⟩ := ih m1.inv hk1 ha1 he1 h3
      refine ⟨m1.trans m2,fun w hw => ?_⟩
      rcases mem_cons.mp hw with rfl | hw
      · exact (hv w rfl).grows m1.inv m2.grows
      · exact hvs w hw

private theorem choose_mem {first winner : Viable} {rest : List Viable}
    (h : choose location name first rest p = .ok winner q) : winner ∈ first :: rest ∧ p = q := by
  unfold choose at h
  generalize hw : (first :: rest).filter _ = winners at h
  match winners with
  | [v] =>
    cases h
    exact ⟨mem_of_mem_filter (hw ▸ mem_singleton.mpr rfl),rfl⟩
  | [] => simp at h
  | _ :: _ :: _ => simp [bind_ok] at h

/-! ### Arguments -/

theorem Ready.head {id : ExprId} (h : p.Ready lo (id :: ids) hi) :
    p.Ready lo [id] (id.index + 1) ∧ lo ≤ id.index ∧ id.index + 1 ≤ hi := by
  cases h.tiles with
  | cons hc hr =>
    have h1 := hc.le
    have h2 := hr.le
    exact ⟨⟨h.formed,.cons hc .nil,fun n hlo hhi => h.nodes n hlo (by omega)⟩,h1,h2⟩

private theorem Ready.bound (h : p.Ready lo ids hi) (hl : lo < hi) : hi ≤ p.exprs.size := by
  have := (h.nodes ⟨hi - 1⟩ (by simp; omega) (by simp; omega)).loose.1
  simp at this
  omega

/-- Expressions in a row: first the ones in front, then those behind. -/
theorem Ready.split {first second : List ExprId} (h : p.Ready lo (first ++ second) hi) :
    ∃ mid, p.Ready lo first mid ∧ lo ≤ mid ∧ mid ≤ hi ∧ ∀ {q}, p.Moves lo mid q → q.Ready mid second hi := by
  obtain ⟨mid,h1,h2⟩ := h.tiles.split
  have hlo := h1.le
  have hhi := h2.le
  refine ⟨mid,⟨h.formed,h1,fun n hn1 hn2 => h.nodes n hn1 (by omega)⟩,hlo,hhi,
    fun m => ⟨m.step.formed h.formed,?_,fun n hn1 hn2 => ?_⟩⟩
  · exact m.grows.tiles h2 fun hlt => h.bound (by omega)
  · exact m.step.open (h.nodes n (by omega) hn2) (by omega)

theorem Ready.tail {id : ExprId} (h : p.Ready lo (id :: ids) hi) (m : p.Moves lo (id.index + 1) q) :
    q.Ready (id.index + 1) ids hi := by
  have hlo := h.head.2.1
  cases h.tiles with
  | cons hc hr =>
    refine ⟨m.step.formed h.formed,m.grows.tiles hr fun hlt => h.bound (by omega),fun n h1 h2 => ?_⟩
    exact m.step.open (h.nodes n (by omega) h2) (by omega)

theorem Ready.calm (h : p.Ready lo ids hi) (m : p.Calm q) : q.Ready lo ids hi := by
  refine ⟨m.step.formed h.formed,by rw [m.exprs]; exact h.tiles,fun n h1 h2 => ?_⟩
  exact (m.step.any lo lo).open (h.nodes n h1 h2) (by omega)

private theorem Inv.exprs (hS : S.Sound) {τs : List Ty} (hI : p.Inv) (hr : p.Ready lo ids hi) (hs : p.Local scope)
    (h : S.exprs scope ids p = .ok τs q) : p.Moves lo hi q ∧ List.Forall₂ q.Typed ids τs ∧ p.Enters scope ids q := by
  induction ids generalizing p lo τs with
  | nil =>
    cases h
    exact ⟨.refl hI,.nil,.nil⟩
  | cons id ids ih =>
    obtain ⟨τ,p1,h1,h2⟩ := bind_ok.mp h
    obtain ⟨rest,h3,rfl⟩ := bind_pure_ok.mp h2
    obtain ⟨hhead,hlo,hhi⟩ := hr.head
    obtain ⟨m1,ht,hn⟩ := hS.expr hI hhead hs h1
    obtain ⟨m2,hts,hns⟩ := ih m1.inv (hr.tail m1) (m1.grows.local hs) h3
    exact ⟨(m1.mono (by omega)).trans (m2.mono (by omega)),.cons (m2.grows.typed' ht) hts,hn.cons m2.grows hns⟩

/-! ### What a call means -/

private theorem callTyped_of_below {τ : Ty} {e : FunctionDef}
    (hke : p.entities.kind id = .function e) (hplain : e.typeParams = []) (hsig : e.signature = .done)
    (hret : e.returnType = some τ) (hp : e.paramTypes = types) (hb : List.Forall₂ p.Below argTypes types)
    (ht : List.Forall₂ p.Typed args argTypes) : p.CallTyped args (.function id) τ := by
  refine .function hke hplain hsig hret ?_
  subst hp
  generalize e.paramTypes = types at hb
  induction ht generalizing types with
  | nil =>
    cases hb
    exact .nil
  | cons h _ ih =>
    cases hb with
    | cons hb hbs => exact .cons ⟨_,h,hb⟩ (ih _ hbs)

private theorem Inv.calledFunction (hS : S.Sound) (hI : p.Inv) (hP : p.Formed) {winner : Viable}
    {args : List ExprId} (hacc : p.Accepts argTypes winner) (ht : List.Forall₂ p.Typed args argTypes) (h : (do
      let target ←
        match winner.typeArgs with
        | some typeArgs => S.instantiateFunction winner.id typeArgs location
        | none => pure winner.id
      let type ← S.returnType target location
      return (.function target, type) : Check (CallTarget × Ty)) p = .ok r q) :
    p.Moves 0 0 q ∧ p.Confines q ∧ q.CallTyped args r.1 r.2 ∧ r.2.Good q.entities := by
  have hF := hS.follows.respects p.scopes.size
  obtain ⟨types,htakes,hb⟩ := hacc
  cases hta : winner.typeArgs with
  | none =>
    simp only [hta] at h htakes
    obtain ⟨target,p1,h1,h2⟩ := bind_ok.mp h
    cases h1
    obtain ⟨τ,h3,rfl⟩ := bind_pure_ok.mp h2
    cases htakes with
    | plain hk hplain hsig hp =>
      obtain ⟨m,e,hke,hes,her⟩ := hI.returnType hS hP hk hplain h3
      obtain ⟨e',hke',ge⟩ := m.grows.function hk
      cases hke.symm.trans hke'
      refine ⟨m,.of_runs (hF.returnType winner.id location) hI.orderly h3,callTyped_of_below hke (ge.typeParams.trans hplain) hes her
        ((ge.signature hsig).2.1.trans hp) (hb.imp fun _ _ => m.grows.below)
        (ht.imp fun _ _ => m.grows.typed'),(m.inv.functionOk hke).returnType τ her⟩
  | some typeArgs =>
    simp only [hta] at h htakes
    obtain ⟨target,p1,h1,h2⟩ := bind_ok.mp h
    obtain ⟨τ,h3,rfl⟩ := bind_pure_ok.mp h2
    cases htakes with
    | @generic d _ hk hne hgood hmean =>
      obtain ⟨m1,c,hkc,hinst⟩ := hI.instantiateFunction hS hP hk hne hgood h1
      obtain ⟨m2,e,hke,hes,her⟩ := m1.inv.returnType hS (m1.step.formed hP) hkc hinst.typeParams h3
      obtain ⟨e',hke',ge⟩ := m2.grows.function hkc
      cases hke.symm.trans hke'
      have hstatic := (hI.functionOk hk).scope
      -- the instance means by its parameters what they meant when it was chosen
      have htypes : e.paramTypes = types := by
        have h1 := ((m1.inv.functionOk hkc).signed hinst.signature).types
        have h2 := m1.grows.meanings? hI.scopes hstatic hmean
        rw [hinst.scope,hinst.params,h2] at h1
        rw [(ge.signature hinst.signature).2.1]
        exact (Option.some.inj h1).symm
      have m := m1.trans m2
      have hc1 : p.Confines p1 :=
        .of_runs (hF.instantiateFunction winner.id location fun τ _ => τ.avoids_none) hI.orderly h1
      have hc2 : p1.Confines q :=
        .of_runs ((hS.follows.respects p1.scopes.size).returnType target location) m1.inv.orderly h3
      exact ⟨m,hc1.trans hc2,callTyped_of_below hke (ge.typeParams.trans hinst.typeParams) hes her htypes
        (hb.imp fun _ _ => m.grows.below) (ht.imp fun _ _ => m.grows.typed'),
        (m2.inv.functionOk hke).returnType τ her⟩

private theorem Inv.finished (hI : p.Inv) {d : ObjectDef} (hk : p.entities.kind id = .object d) {field : Field}
    (hf : field ∈ d.fields) : d.stage = .done := by
  apply Classical.byContradiction
  intro hs
  rw [(hI.objectOk hk).unfinished hs] at hf
  cases hf

private theorem Inv.fieldAccess (hI : p.Inv) {index : Nat} {τ : Ty}
    (ht : List.Forall₂ p.Typed args argTypes) (h : fieldAccess? p.entities name argTypes = some (object, index, τ)) :
    p.CallTyped args (.field object index) τ ∧ τ.Good p.entities := by
  unfold fieldAccess? at h
  split at h
  · simp only [Option.bind_eq_bind,Option.bind_eq_some_iff] at h
    obtain ⟨d,hd,i,_,field,hf,h⟩ := h
    cases h
    have hk := object?_eq_some.mp hd
    have hm := mem_of_getElem? hf
    cases ht with
    | cons ht hnil =>
      cases hnil
      exact ⟨.field ht hk (hI.finished hk hm) hf,((hI.objectOk hk).fields field hm).1⟩
  · cases h

private theorem Inv.good_of_typed (hI : p.Inv) {τs : List Ty} (h : List.Forall₂ p.Typed ids τs) :
    ∀ τ ∈ τs, τ.Good p.entities := by
  induction h with
  | nil => simp
  | cons h _ ih =>
    intro σ hσ
    rcases mem_cons.mp hσ with rfl | hσ
    · exact (hI.nodes _ _ h).2
    · exact ih σ hσ

private theorem reportNoMatch_ok {α : Type} {all fitting : List EntityId} {a : α} :
    reportNoMatch location name argTypes explicit all fitting p ≠ .ok a q := by
  intro h
  obtain ⟨_,_,hg,h1⟩ := bind_ok.mp h
  simp only at h1
  split at h1
  · simp [bind_ok] at h1
  · split at h1
    · simp [bind_ok] at h1
    · split at h1 <;> simp [bind_ok] at h1

private theorem Inv.resolveTarget (hS : S.Sound) (hI : p.Inv) (hr : p.Ready lo args hi)
    (hs : p.Local scope) (hg : ∀ t ∈ typeArgs, t.Good p.entities)
    (h : S.resolveTarget location scope name args typeArgs p = .ok r q) :
    p.Moves lo hi q ∧ q.CallTyped args r.1 r.2 ∧ r.2.Good q.entities ∧ p.Enters scope args q := by
  obtain ⟨argTypes,p1,h1,h2⟩ := bind_ok.mp h
  obtain ⟨explicit,p2,h3,h4⟩ := bind_ok.mp h2
  have h6 := get_bind_ok.mp h4
  obtain ⟨vs,p3,h7,h8⟩ := bind_ok.mp h6
  obtain ⟨m1,ht1,hn1⟩ := hI.exprs hS hr hs h1
  obtain ⟨m2,hexp,_⟩ := m1.inv.resolveTypes hS _ (fun t ht => m1.grows.goodExpr (hg t ht)) h3
  have ht2 : List.Forall₂ p2.Typed args argTypes := ht1.imp fun _ _ => m2.grows.typed'
  have hlen : args.length = argTypes.length := ht1.length_eq
  obtain ⟨m3,hacc⟩ := m2.inv.viable hS (by
    intro id hid
    simp only [mem_filter,Option.any_eq_true,decide_eq_true_eq] at hid
    obtain ⟨_,d,hd,hl⟩ := hid
    exact ⟨d,function?_eq_some.mp hd,hl.trans hlen⟩) (m2.inv.good_of_typed ht2) hexp h7
  have m : p.Moves lo hi p3 := m1.trans (m2.moves.trans m3.any)
  have ht3 : List.Forall₂ p3.Typed args argTypes := ht2.imp fun _ _ => m3.grows.typed'
  have hc2 : p1.Confines p2 :=
    .of_types ((hS.follows.respectsTypes none).resolveTypes scope fun t _ => t.avoids_none) m1.inv.orderly h3
  have hc3 : p2.Confines p3 := .of_runs ((hS.follows.respects p2.scopes.size).viable
    (fun τ _ => τ.avoids_none) (fun τ _ => τ.avoids_none) _) m2.inv.orderly h7
  have hn3 : p.Enters scope args p3 := hn1.calm m1.inv (m1.grows.local hs) (m2.grows.trans m3.grows) (hc2.trans hc3)
  cases vs with
  | nil =>
    have h10 := get_bind_ok.mp h8
    cases hfa : fieldAccess? p3.entities name argTypes with
    | some access =>
      simp only [hfa] at h10
      cases h10
      obtain ⟨hc,hg⟩ := m3.inv.fieldAccess ht3 hfa
      exact ⟨m,hc,hg,hn3⟩
    | none =>
      simp only [hfa] at h10
      exact absurd h10 reportNoMatch_ok
  | cons first rest =>
    obtain ⟨winner,p4,h9,h10⟩ := bind_ok.mp h8
    obtain ⟨hw,rfl⟩ := choose_mem h9
    obtain ⟨m4,hf4,hc,hg⟩ := m3.inv.calledFunction hS (m.step.formed hr.formed) (hacc winner hw) ht3 h10
    exact ⟨m.trans m4.any,hc,hg,hn3.calm m3.inv (m.grows.local hs) m4.grows hf4⟩

/-! ### Object literals -/

private theorem Inv.constructed (hS : S.Sound) (hI : p.Inv) (hg : ∀ t ∈ typeArgs, t.Good p.entities)
    (h : S.constructed scope name typeArgs location p = .ok object q) :
    p.Calm q ∧ (Ty.object object).Good q.entities ∧ p.Confines q := by
  have hT : p.Confines q := .of_types ((hS.follows.respectsTypes none).constructed scope name
    (fun t _ => t.avoids_none) location) hI.orderly h
  have h2 := get_bind_ok.mp h
  obtain ⟨_,h3⟩ := guard_ok.mp h2
  obtain ⟨τ,p1,h4,h5⟩ := bind_ok.mp h3
  obtain ⟨m,hgood,_⟩ := hI.resolveType hS _ (by
    split
    · exact .named
    · exact .apply hg) h4
  cases τ with
  | object id =>
    cases h5
    exact ⟨m,hgood,hT⟩
  | _ => simp [bind_ok] at h5

private theorem Inv.initialisers (hS : S.Sound) {fields : List Field} {u : Unit} (hI : p.Inv)
    (hr : p.Ready lo (given.map (·.2)) hi) (hs : p.Local scope) (h : S.initialisers scope fields given p = .ok u q) :
    p.Moves lo hi q ∧ p.Enters scope (given.map (·.2)) q ∧ ∀ name value, (name, value) ∈ given →
      ∃ field, fields.find? (·.name == name) = some field ∧ q.Fits value field.type := by
  have hT := hS.follows.respectsTypes none
  induction given generalizing p lo with
  | nil =>
    cases h
    exact ⟨.refl hI,.nil,by simp⟩
  | cons head given ih =>
    obtain ⟨name,value⟩ := head
    simp only [Solver.initialisers] at h
    cases hf : fields.find? (·.name == name) with
    | none => simp [hf,bind_ok] at h
    | some field =>
      simp only [hf] at h
      obtain ⟨τ,p1,h1,h2⟩ := bind_ok.mp h
      have h4 := node_bind_ok.mp h2
      obtain ⟨_,p2,h5,h6⟩ := bind_ok.mp h4
      obtain ⟨hhead,hlo,hhi⟩ := hr.head
      obtain ⟨m1,ht,hn⟩ := hS.expr hI hhead hs h1
      obtain ⟨m2,_,hb⟩ := m1.inv.expectAssignable (m1.inv.nodes value τ ht).2 h5
      have m12 := m1.trans m2.moves
      have hn12 := hn.calm m1.inv (m1.grows.local hs) m2.grows (.of_types (hT.expectAssignable _ _ _) m1.inv.orderly h5)
      obtain ⟨m3,hns,hrest⟩ := ih m12.inv (hr.tail m12) (m12.grows.local hs) h6
      refine ⟨(m12.mono (by omega)).trans (m3.mono (by omega)),hn12.cons m3.grows hns,fun n v hm => ?_⟩
      rcases mem_cons.mp hm with he | hm
      · cases he
        exact ⟨field,hf,m3.grows.fits ⟨τ,m2.grows.typed' ht,hb⟩⟩
      · exact hrest n v hm

/-- The parts of a node that is about to be resolved are about to be resolved. -/
theorem Ready.parts {id : ExprId} (h : p.Ready lo [id] (id.index + 1)) :
    p.Ready lo (p.exprs.get id).shape.children id.index := by
  cases h.tiles with
  | cons hc hr => exact ⟨h.formed,hc,fun n h1 h2 => h.nodes n h1 (by omega)⟩

theorem Ready.self {id : ExprId} (h : p.Ready lo [id] (id.index + 1)) : p.Open id :=
  h.nodes id h.head.2.1 (by omega)

private theorem Inv.construct (hS : S.Sound) (hI : p.Inv) {literal : ExprId} {u : Unit}
    (hr : p.Ready lo [literal] (literal.index + 1)) (hshape : (p.exprs.get literal).shape = .object given)
    (hs : p.Local scope) (hg : (Ty.object object).Good p.entities)
    (h : S.construct scope object literal given location p = .ok u q) :
    p.Moves lo (literal.index + 1) q ∧ q.CallTyped [literal] (.construct object) (.object object) ∧
      p.Enters scope [literal] q := by
  obtain ⟨_,_,h1,h2⟩ := bind_ok.mp h
  obtain ⟨rfl,rfl⟩ := Check.object?_ok.mp h1
  obtain ⟨_,p1,h3,h4⟩ := bind_ok.mp h2
  have hparts := hr.parts
  rw [hshape] at hparts
  obtain ⟨m1,hn1,hfits⟩ := hI.initialisers hS hparts hs h3
  -- the literal itself is still as it was
  have hlo := hr.head.2.1
  have hopen := m1.step.open hr.self (by omega)
  have hshape1 : (p1.exprs.get literal).shape = .object given := by
    rw [m1.step.frame literal hr.self.loose (by omega)]
    exact hshape
  obtain ⟨hnumber,hset⟩ : given.length = (((p.entities.object? object).map (·.fields)).getD []).length ∧
      q = { p1 with exprs := p1.exprs.setType literal (.object object) } := by
    split at h4
    · exact ⟨‹_›,modify_ok.mp h4⟩
    · simp [bind_ok] at h4
  obtain ⟨m2,ht⟩ := m1.inv.setType (τ := .object object) hopen.loose hopen.untyped (by
      rw [hshape1]
      exact .object (hr.self.raw.names given hshape) fun x hx => by
        obtain ⟨_,_,σ,hσ,_⟩ := hfits x.1 x.2 hx
        exact ⟨σ,hσ⟩) (m1.grows.good hg)
  subst hset
  have hshape2 : ((p1.exprs.setType literal (.object object)).get literal).shape = .object given := by
    simp [Arena.get_setType_self hopen.loose.1,hshape1]
  have hlays : p.Lays scope (.object given) { p1 with exprs := p1.exprs.setType literal (.object object) } :=
    .of_parts hn1 m2.grows rfl (by simp [ExprShape.uses]) (by simp [ExprShape.inner])
  -- the object had its layout when the initialisers were compared with it
  obtain ⟨d,hk,hplain⟩ := hg
  have ho := object?_eq_some.mpr hk
  simp only [ho,Option.map_some,Option.getD_some] at hnumber hfits
  obtain ⟨e,hke,ge⟩ := (m1.grows.trans m2.grows).object hk
  obtain ⟨hdone,_,hfields⟩ := ge.done (hr.formed object d hk hplain)
  refine ⟨(m1.mono (by omega)).trans (m2.mono (by omega)),.construct hshape2 ht hke hdone (hfields ▸ hnumber)
    fun name value hm => ?_,hlays.enters ht m2.inv hshape2⟩
  obtain ⟨field,hf,hfit⟩ := hfits name value hm
  exact ⟨field,hfields ▸ hf,m2.grows.fits hfit⟩

private theorem Inv.resolveConstructor (hS : S.Sound) (hI : p.Inv) {literal : ExprId}
    (hr : p.Ready lo [literal] (literal.index + 1)) (hshape : (p.exprs.get literal).shape = .object given)
    (hs : p.Local scope) (hg : ∀ t ∈ typeArgs, t.Good p.entities)
    (h : S.resolveConstructor location scope name typeArgs literal given p = .ok r q) :
    p.Moves lo (literal.index + 1) q ∧ q.CallTyped [literal] r.1 r.2 ∧ r.2.Good q.entities ∧
      p.Enters scope [literal] q := by
  obtain ⟨object,p1,h1,h2⟩ := bind_ok.mp h
  obtain ⟨_,h3,rfl⟩ := bind_pure_ok.mp h2
  obtain ⟨m1,hgood,hf1⟩ := hI.constructed hS hg h1
  obtain ⟨m2,hc,hn⟩ := m1.inv.construct hS (hr.calm m1) (by rw [m1.exprs]; exact hshape) (m1.grows.local hs) hgood h3
  exact ⟨m1.moves.trans m2,hc,m2.grows.good hgood,hn.after hI hs m1.grows hf1⟩

theorem Inv.resolveCall (hS : S.Sound) (hI : p.Inv) {args : List ExprId} (hr : p.Ready lo args hi)
    (hs : p.Local scope) (hg : ∀ t ∈ typeArgs, t.Good p.entities)
    (h : S.resolveCall location scope name args typeArgs p = .ok r q) :
    p.Moves lo hi q ∧ q.CallTyped args r.1 r.2 ∧ r.2.Good q.entities ∧ p.Enters scope args q := by
  match args with
  | [arg] =>
    have h2 := node_bind_ok.mp h
    cases hshape : (p.exprs.get arg).shape with
    | object given =>
      simp only [hshape] at h2
      obtain ⟨hhead,_,hhi⟩ := hr.head
      obtain ⟨m,hc⟩ := hI.resolveConstructor hS hhead hshape hs hg h2
      exact ⟨m.mono (by omega),hc⟩
    | _ =>
      simp only [hshape] at h2
      exact hI.resolveTarget hS hr hs hg h2
  | [] | _ :: _ :: _ => exact hI.resolveTarget hS hr hs hg h

end Program

end FormCompiler
