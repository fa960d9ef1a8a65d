import FormCompiler.Proofs.Resolution.Bodies
import FormCompiler.Proofs.Resolution.Scanning

/-! Resolution is complete. Definitions are resolved on demand and instances are made on the way, so that nothing
visits them all at the end; still, when a program is accepted, every definition is finished and every node of every
body that can run has a type and its slots filled. -/

namespace FormCompiler

open Check

variable {id : EntityId} {p q : Program}

namespace Program

/-- Nothing of the program is left to be resolved: types are finished, functions that can be called have their
signature, result and body, and the nodes of generic bodies are as they were read. -/
structure Complete (p : Program) : Prop where
  aliases : ∀ id d, p.entities.kind id = .typeAlias d → d.stage = .done ∧ d.resolved.isSome = true
  objects : ∀ id d, p.entities.kind id = .object d → d.typeParams = [] →
    d.stage = .done ∧ (d.parent = none ↔ id = objectId)
  functions : ∀ id d, p.entities.kind id = .function d → d.typeParams = [] → d.hasBody = true →
    d.signature = .done ∧ d.bodyStage = .done ∧ d.returnType.isSome = true
  nodes : ∀ id d n, p.entities.kind id = .function d → d.typeParams = [] → d.Covers n →
    (∃ τ, p.Typed n τ ∧ τ ≠ .never) ∧ (p.exprs.get n).shape.Filled p.entities
  generics : ∀ id d n, p.entities.kind id = .function d → d.typeParams ≠ [] → d.Covers n →
    (p.exprs.get n).type = none ∧ (p.exprs.get n).shape.blank = (p.exprs.get n).shape

/-! ### Types -/

/-- A type that is finished stays so. -/
theorem Advances.finished (h : p.Advances none q) (hid : id.index < p.entities.size)
    (hf : p.Finished id) : q.Finished id := by
  have hl := h.like id hid
  refine ⟨fun e he hn => ?_,fun e he => ?_⟩
  · rw [he] at hl
    cases hk : p.entities.kind id with
    | object d =>
      obtain ⟨e',he',hlike,hfixed⟩ := h.object_fixed (by simp) hk
      cases he.symm.trans he'
      have hd := hf.object d hk (by simpa only [ObjectDef.isGeneric,hlike.typeParams] using hn)
      exact (hfixed (by simp [hd])).1.trans hd
    | _ =>
      rw [hk] at hl
      cases hl
  · rw [he] at hl
    cases hk : p.entities.kind id with
    | typeAlias d =>
      obtain ⟨e',he',hfixed⟩ := h.alias_fixed (by simp) hk
      cases he.symm.trans he'
      have hd := hf.typeAlias d hk
      exact (hfixed (by simp [hd])).1.trans hd
    | _ =>
      rw [hk] at hl
      cases hl

end Program

namespace Solver.Follows

variable {S : Solver} (hS : S.Follows (fun _ => False) S)
include hS

theorem finishes (id : EntityId) (p : Program) (hO : p.Orderly) :
    Ends (S.resolveTypeEntity id) p (fun _ q => p.Reaches none q ∧ q.Finished id) (fun _ q => p.Leaves none q) := by
  refine .run rfl ?_
  cases hk : (p.entities.get id).kind with
  | object d =>
    dsimp only
    split
    · rename_i hg
      refine ⟨Program.Reaches.refl hO,fun e he hn => ?_,fun e he => absurd (hk.symm.trans he) (by simp)⟩
      cases hk.symm.trans he
      simp [hg] at hn
    · refine (((hS.object id).widen (some 0)) p (.of_orderly hO)).ends.mono ?_ fun _ _ k => k.2
      rintro _ q _ ⟨_,hr,e,hke,he⟩
      refine ⟨hr,fun e' he' hn => ?_,fun e' he' => absurd (hke.symm.trans he') (by simp)⟩
      cases hke.symm.trans he'
      exact he.resolve_right (by simp [hn])
  | typeAlias d =>
    refine Ends.bind ((((hS.aliased id).widen (some 0)) p (.of_orderly hO)).ends.mono ?_ fun _ _ k => k.2) fun _ _ _ k => k
    rintro _ q _ ⟨_,hr,_,e,hke,he,_⟩
    refine ⟨hr,fun e' he' => absurd (hke.symm.trans he') (by simp),fun e' he' => ?_⟩
    cases hke.symm.trans he'
    exact he
  | _ =>
    exact ⟨Program.Reaches.refl hO,fun e he => absurd (hk.symm.trans he) (by simp),
      fun e he => absurd (hk.symm.trans he) (by simp)⟩

theorem finishesAll (ids : List EntityId) (p : Program) (hO : p.Orderly)
    (hids : ∀ id ∈ ids, id.index < p.entities.size) :
    Ends (S.resolveTypeEntities ids) p (fun _ q => p.Reaches none q ∧ ∀ id ∈ ids, q.Finished id)
      (fun _ q => p.Leaves none q) := by
  induction ids generalizing p with
  | nil => exact ⟨Program.Reaches.refl hO,by simp⟩
  | cons id ids ih =>
    have hid : id.index < p.entities.size := hids id (by simp)
    refine (hS.finishes id p hO).bind fun _ q _ ⟨hq,hf⟩ => ?_
    have hids' : ∀ j ∈ ids, j.index < q.entities.size := fun j hj =>
      Nat.lt_of_lt_of_le (hids j (by simp [hj])) hq.advances.entities
    refine (ih q hq.orderly hids').mono (fun _ r _ ⟨hr,hfs⟩ => ⟨hq.trans hr,?_⟩) fun _ r hr => hq.toLeaves.trans hr
    simpa using ⟨hr.advances.finished (Nat.lt_of_lt_of_le hid hq.advances.entities) hf,hfs⟩

end Solver.Follows

namespace Program

/-- All types that were there from the start are finished. -/
theorem Orderly.resolves (hO : p.Orderly) (h : resolveProgram p = .ok () q) :
    p.Reaches none q ∧ ∀ id, id.index < p.entities.size → q.Finished id := by
  have hS : p.solver.Follows (fun _ => False) p.solver := Solver.follows_upTo (Nat.le_refl p.budget)
  have hR := hS.respects 0
  have hids : ∀ id ∈ p.entities.ids, id.index < p.entities.size := by
    exact fun id => EntityTable.mem_ids.mp
  have hends : Ends resolveProgram p (fun _ q => p.Reaches none q ∧ ∀ id ∈ p.entities.ids, q.Finished id)
      fun _ q => p.Leaves none q := by
    refine .run rfl ((hS.finishesAll p.entities.ids p hO hids).bind fun _ p1 _ h1f => ?_)
    obtain ⟨h1,hf⟩ := h1f
    have hrest := hR.bind (hS.attachMethods (some 0)) fun _ _ =>
      hR.bind (hR.resolveFunctionEntities p.entities.ids) fun _ _ => hR.checkCoverage
    refine (hrest.settling p1 h1.orderly).mono (fun _ q _ hq => ⟨h1.trans hq,fun id hid => ?_⟩) fun _ q hq => h1.toLeaves.trans hq
    exact hq.advances.finished (Nat.lt_of_lt_of_le (hids id hid) h1.advances.entities) (hf id hid)
  obtain ⟨hr,hf⟩ := hends.of_ok h
  exact ⟨hr,fun id hid => hf id (EntityTable.mem_ids.mpr hid)⟩

/-- Every type is finished: those that were there were asked about, and those that were made were finished then. -/
theorem Orderly.finished (hO : p.Orderly) (h : resolveProgram p = .ok () q) (id : EntityId) : q.Finished id := by
  obtain ⟨hr,hf⟩ := hO.resolves h
  refine ⟨fun e he hn => ?_,fun e he => ?_⟩
  · by_contra hs
    have hid := (hr.unfinished id (by simp) (by rw [he]; exact hs)).1
    exact hs ((hf id hid).object e he hn)
  · by_contra hs
    have hid := (hr.unfinished id (by simp) (by rw [he]; exact hs)).1
    exact hs ((hf id hid).typeAlias e he)

/-! ### Bodies -/

/-- Nothing was done about the body of a generic function. -/
theorem Fresh.body_untouched (hF : p.Fresh) (hr : p.Reaches none q) (hm : p.Moves 0 0 q) {e : FunctionDef} {n : ExprId}
    (hk : q.entities.kind id = .function e) (hs : e.bodyStage = .pending) (hc : e.Covers n) :
    q.exprs.get n = p.exprs.get n := by
  rcases hm.step.asleep id e hk hs with ⟨_,_,_,hsame⟩ | hnew
  · exact hsame n hc
  · -- A body that waits was there from the start, so its nodes were.
    have hid := (hr.unfinished id (by simp) (by simp [hk,EntityKind.stage,hs])).1
    obtain ⟨d',hd',hg⟩ := hm.grows.kind_function hid hk
    obtain ⟨first,root,hb,_,hle⟩ := hc
    have hlt := ((hF.function hd').body first root (hg.body ▸ hb)).1
    have hge := hnew n ⟨first,root,hb,‹_›,hle⟩
    omega

/-- A node that is well typed has its slots filled. -/
theorem NodeTyped.filled {shape : ExprShape} {τ : Ty} (h : p.NodeTyped shape τ) : shape.Filled p.entities := by
  cases h with
  | name hv => exact ⟨_,_,_,rfl,hv.choose_spec⟩
  | block | call => rfl
  | define _ hv => exact ⟨_,_,rfl,hv⟩
  | assign hv => exact ⟨_,_,rfl,hv⟩
  | select hm =>
    intro arm ha hp
    cases hm.arms arm ha with
    | literal he => simp [he,Pattern.isType] at hp
    | type _ ht => exact ⟨_,ht⟩
  | _ => trivial

/-- A program that was read and accepted is complete. -/
theorem resolveProgram_complete (hp : p.Scanned) (h : resolveProgram p = .ok () q) : q.Complete := by
  have hF := hp.fresh
  have hO := hF.orderly
  obtain ⟨hr,_⟩ := hO.resolves h
  obtain ⟨hm,hw⟩ := (hF.inv hp.hasBase).resolveProgram hF.idle (hF.arraysNamed hp.hasArrays) h
  have hI := hw.inv
  have settled : ∀ id d, q.entities.kind id = .function d → d.typeParams = [] → d.hasBody = true →
      d.bodyStage = .done := by
    intro id d hk hplain hb
    refine hw.settled id d hk hplain ?_
    cases hbody : d.body <;> simp_all [FunctionDef.hasBody,FunctionDef.intrinsic?]
  refine ⟨fun id d hk => ?_,fun id d hk hplain => ?_,fun id d hk hplain hb => ?_,fun id d n hk hplain hc => ?_,
    fun id d n hk hgeneric hc => ?_⟩
  · have hd := (hO.finished h id).typeAlias d hk
    exact ⟨hd,(hr.orderly.sane id).named d hk hd⟩
  · have hd := (hO.finished h id).object d hk (by simp [ObjectDef.isGeneric,hplain])
    refine ⟨hd,(hI.objectOk hk).base hd,?_⟩
    rintro rfl
    obtain ⟨d0,hk0,hd0,_⟩ := hp.hasBase
    obtain ⟨e,he,_,hfixed⟩ := hr.advances.object_fixed (by simp) hk0
    cases hk.symm.trans he
    exact (hfixed (by simp [hd0])).2.1.trans (hF.object hk0).blank.2.1
  · have hd := settled id d hk hplain hb
    have hsigned : d.signature = .done := by
      by_contra hs
      simp [((hr.orderly.sane id).unsigned d hk hs).2] at hd
    refine ⟨hsigned,hd,?_⟩
    cases hbody : d.body with
    | expr first root =>
      obtain ⟨_,ρ,_,hρ,_⟩ := ((hI.functionOk hk).body first root hbody).done hd
      simp [hρ]
    | _ => simp [FunctionDef.hasBody,hbody] at hb
  · have hb : d.hasBody = true := by
      obtain ⟨first,root,hbody,_⟩ := hc
      simp [FunctionDef.hasBody,hbody]
    obtain ⟨τ,hτ⟩ := hI.typed_of_covers hk (settled id d hk hplain hb) hc
    refine ⟨⟨τ,hτ,?_⟩,(hI.nodes n τ hτ).1.filled⟩
    rintro rfl
    exact (hI.nodes n _ hτ).2
  · have hf := hI.functionOk hk
    rw [hF.body_untouched hr hm hk (hf.unsigned (hf.generic hgeneric)).2.2 hc]
    exact hp.blank n

/-- An object, one below it under another name, a generic function, and a function that uses them all. -/
private def usesAll : String :=
  "(obj A (: x i32)) (obj B (extends A)) (type C B) (fn id (type_params T) (parameters (: v T)) v)" ++
    "(pub (fn f (parameters (: a A)) (match a (=> C (id 1))" ++
    "  (else (block (define_mut n (x a)) (= n (+ n (id 2))) n)))))"

theorem resolveProgram_complete_sample : ∃ p q generic made, p.Scanned ∧ resolveProgram p = .ok () q ∧
    (∃ d, q.entities.kind generic = .function d ∧ d.isGeneric = true ∧ d.hasBody = true) ∧
    (∃ d, q.entities.kind made = .function d ∧ d.genericOf.isSome = true ∧ d.hasBody = true) ∧ q.Complete := by
  have hcheck : okAnd (fun _ p => okAnd (fun _ q =>
      q.entities.ids.any (fun id => (q.entities.function? id).any fun d => d.isGeneric && d.hasBody) &&
        q.entities.ids.any fun id => (q.entities.function? id).any fun d => d.genericOf.isSome && d.hasBody)
      (resolveProgram p)) (scan [] "main.vast" usesAll initial) = true := by decide +kernel
  obtain ⟨_,p,hp,h⟩ := okAnd_iff.mp hcheck
  obtain ⟨_,q,hq,h⟩ := okAnd_iff.mp h
  simp only [Bool.and_eq_true,List.any_eq_true,Option.any_eq_true,EntityTable.function?_eq_some] at h
  obtain ⟨⟨generic,_,hgeneric⟩,made,_,hmade⟩ := h
  exact ⟨p,q,generic,made,scanned_of_scan hp,hq,hgeneric,hmade,resolveProgram_complete (scanned_of_scan hp) hq⟩

/-- Variables are lexically scoped. In every body of an accepted program a name stands for the innermost variable that
is seen there under this name: a parameter, or one that was added before it in the same scope or in one around it. -/
theorem variables_lexical (hp : p.Scanned) (h : resolveProgram p = .ok () q) {f : EntityId} {d : FunctionDef}
    {first root : ExprId} (hk : q.entities.kind f = .function d) (hplain : d.typeParams = [])
    (hb : d.body = .expr first root) : q.Nested (fun _ => none) d.paramVars [root] := by
  have hF := hp.fresh
  obtain ⟨-,hw⟩ := (hF.inv hp.hasBase).resolveProgram hF.idle (hF.arraysNamed hp.hasArrays) h
  have hdone := hw.settled f d hk hplain (by simp [FunctionDef.intrinsic?,hb])
  exact (((hw.inv.functionOk hk).body first root hb).lexical hdone).2

/-- The last name stands for the variable of the inner block, not for the parameter. -/
theorem variables_lexical_sample : ∃ (p q : Program) (d : FunctionDef), p.Scanned ∧ resolveProgram p = .ok () q ∧
    q.entities.kind ⟨61⟩ = .function d ∧ d.body = .expr ⟨0⟩ ⟨6⟩ ∧ d.paramVars = [⟨62⟩] ∧
    (q.exprs.get ⟨0⟩).shape.uses = [("x", ⟨62⟩)] ∧ (q.exprs.get ⟨4⟩).shape.uses = [("x", ⟨64⟩)] ∧
    q.Nested (fun _ => none) d.paramVars [⟨6⟩] := by
  have hcheck : okAnd (fun _ p => okAnd (fun _ q => ((q.entities.function? ⟨61⟩).any fun d => d.typeParams = [] &&
      d.body = .expr ⟨0⟩ ⟨6⟩ && d.paramVars = [⟨62⟩]) && (q.exprs.get ⟨0⟩).shape.uses = [("x", ⟨62⟩)] &&
      (q.exprs.get ⟨4⟩).shape.uses = [("x", ⟨64⟩)]) (resolveProgram p)) (scan [] "main.vast"
      "(fn f (parameters (: x i32)) (block (define y x) (block (define x y) x)))" initial) = true := by decide +kernel
  obtain ⟨_,p,hp,h⟩ := okAnd_iff.mp hcheck
  obtain ⟨_,q,hq,h⟩ := okAnd_iff.mp h
  simp only [Bool.and_eq_true,decide_eq_true_eq,Option.any_eq_true,EntityTable.function?_eq_some] at h
  obtain ⟨⟨⟨d,hk,⟨hplain,hb⟩,hvars⟩,houter⟩,hinner⟩ := h
  exact ⟨p,q,d,scanned_of_scan hp,hq,hk,hb,hvars,houter,hinner, variables_lexical (scanned_of_scan hp) hq hk hplain hb⟩

end Program

end FormCompiler
