import FormCompiler.Proofs.Semantics.Choice

/-! Bodies and calls run as they are evaluated: every node by induction on how deep its parts nest, every call by
induction on how deep calls may nest. -/

namespace FormCompiler

open List

open Wasm (Activation AllTyped Exec Flow Func HeapObject Instance Instr LabelId Module NumType Proper Sound StoreTyped
  Stop Store Surroundings Trap Value ValueType refill refillAll resultTyped runAll runOperands)
open Lower EntityTable

namespace Semantics

variable {exports : List (String × EntityId)} {L : Layout} {E : Emission} {i : Instance} {filler code : Instr}
  {p : Program} {hosts : Hosts} {levels : Nat}

section Nodes

variable {C T : EntityId} {part : ExprId → Instr → Prop} {ev : ExprId → Eval (Option Value)}
  (hR : Ready p exports E filler i) (hG : Grounds p E L) (hP : PartsLeave p E L part)
  (hA : PartsAgree p exports E filler i L (envAt i levels) part ev)
  (hU : Unshared L) {h : State} {s : Activation} {id : ExprId}
  {m : Match} {τ : Ty}

/-- A match on types without an arm for all other cases names an ancestor of every type that its operand can have. -/
theorem covered_arm (hw : p.WellResolved) {d : ObjectDef}
    (hshape : (p.exprs.get id).shape = .select m) (hm : p.MatchTyped m (.object C) τ)
    (hguard : m.isTypeGuard = true) (hnone : m.default = none) (hk : p.entities.kind T = .object d)
    (hd : d.stage = .done) (hext : p.entities.Extends T C) :
    ∃ arm ∈ m.arms, ∃ t, arm.patternType = some (.object t) ∧ p.entities.Extends T t := by
  have htype : ∀ arm ∈ m.arms, ∃ object, arm.patternType = some (.object object) := by
    intro arm ha
    obtain ⟨_,hprim,_⟩ | ⟨_,hpattern,_⟩ := hm.arms arm ha
    · cases hprim
    · exact ⟨_,hpattern⟩
  obtain ⟨tested,htested,hsource⟩ : ∃ tested, testedTypes? m.arms = some tested ∧
      ∀ t ∈ tested, ∃ arm ∈ m.arms, arm.patternType = some (.object t) := by
    unfold testedTypes?
    generalize m.arms = arms at htype
    induction arms with
    | nil => exact ⟨[],rfl,fun _ ht => nomatch ht⟩
    | cons arm arms ih =>
      obtain ⟨object,ho⟩ := htype arm (.head _)
      obtain ⟨rest,hrest,hsource⟩ := ih fun arm ha => htype arm (.tail _ ha)
      refine ⟨object :: rest,by simp [ho,hrest,Ty.object?],fun t ht => ?_⟩
      rcases mem_cons.mp ht with rfl | ht
      · exact ⟨arm,.head _,ho⟩
      · obtain ⟨other,hother,hp⟩ := hsource t ht
        exact ⟨other,.tail _ hother,hp⟩
  obtain ⟨t,ht,hx⟩ := hw.covered id m C tested hshape hnone hguard hm.operand htested T d hk
    ((hw.inv.objectOk hk).plain hd) hd hext
  obtain ⟨arm,ha,hp⟩ := hsource t ht
  exact ⟨arm,ha,t,hp,hx⟩

/-- So one of its arms fires. -/
theorem fires_of_covered (hw : p.WellResolved) {chain : List EntityId}
    (hshape : (p.exprs.get id).shape = .select m) (hm : p.MatchTyped m (.object C) τ)
    (hguard : m.isTypeGuard = true) (hnone : m.default = none) (hT : Chain p.entities T chain)
    (hext : p.entities.Extends T C) : ∃ arm ∈ m.arms, firesOn p T arm = true := by
  obtain ⟨d,hk,hd⟩ := hT.isDone
  obtain ⟨arm,ha,t,hp,hx⟩ := covered_arm hw hshape hm hguard hnone hk hd hext
  refine ⟨arm,ha,?_⟩
  simp only [firesOn,hp]
  exact (extends?_eq hw.inv).mpr hx

include hR hG hP hA hU

theorem select_tied {stored : ValueType} {operand : Nat} {value dispatch : Instr} {exit : LabelId} {σ : Ty}
    (hshape : (p.exprs.get id).shape = .select m) (hm : p.MatchTyped m σ τ) (hs : E.stored? σ = some stored)
    (hc : part m.operand value) (hslot : L.slots[operand]? = some stored)
    (hfree : ∀ v, L.vars.lookup v ≠ some operand) (hvalue : (E.stored? τ).isSome = τ.hasValue)
    (hd : DispatchCode p E L part m stored operand exit (E.stored? τ) dispatch) (hcount : m.arms.length < 0x7fffffff)
    (hpartial : m.isTypeGuard = false → m.default = none → PartialMatch p exports) (hl : Linked p E i L h s) :
    Tied (Ends p exports E i) (Meets p E L) (select (sceneAt p i hosts levels) ev τ.hasValue m h)
      ((refill filler (.seq [.localSet operand value,dispatch])).run (envAt i levels) s) := by
  have hrefill : refill filler (.seq [.localSet operand value,dispatch]) =
      .seq [.localSet operand (refill filler value),refill filler dispatch] := by
    simp only [refill,refillAll]
  rw [hrefill,Instr.run_seq,← hvalue]
  rcases (hA hc hm.operand hl).elim with ⟨halt,h',stop,s',hx,hr,hend⟩ | ⟨v,h',flow,s',hx,hr,hlands⟩
  · have hselect : select (sceneAt p i hosts levels) ev (E.stored? τ).isSome m h = .error halt h' := by
      unfold select Semantics.operand
      simp only [bind_run,hx]
    have hset : (Instr.localSet operand (refill filler value)).run (envAt i levels) s = .error stop s' := by
      rw [Instr.run,Exec.operand_error hr]
    rw [hselect,Wasm.runAll_error hset]
    exact hend
  obtain ⟨rfl,hl',_,hv⟩ := hlands
  rw [hs] at hv
  cases v with
  | none => exact hv.elim
  | some v =>
    obtain ⟨hrun,hl'',hheld⟩ := hl'.setSlot hslot hfree hv
    have hset : (Instr.localSet operand (refill filler value)).run (envAt i levels) s =
        .ok (.next none) { s' with locals := s'.locals.setIfInBounds operand v } := by
      rw [Instr.run,Exec.operand_next hr,hrun]
    rw [Wasm.runAll_next hset,runAll_single]
    have hsuits : Suits p E i s'.store.heap v m.defaultBinding := fun var hvar =>
      ⟨σ,stored,hm.defaultBinding var hvar,hs,hv⟩
    cases hguard : m.isTypeGuard with
    | true =>
      obtain ⟨C,rfl⟩ := hm.guard hguard
      obtain ⟨struct,hC,rfl⟩ := Option.map_eq_some_iff.mp hs
      rcases object_cell hR hl'.mirrors hC hv with rfl | ⟨address,T,fields,sub,chain,rfl,hcell,hheap,hT,hchain,hext⟩
      · have hselect : select (sceneAt p i hosts levels) ev (E.stored? τ).isSome m h = .error (.trap .nullReference) h' := by
          unfold select Semantics.operand
          simp only [bind_run,hx,hguard,if_true]
          rfl
        cases hd with
        | values hno => cases hguard.symm.trans hno
        | types _ _ _ _ _ hcases _ =>
          rw [hselect,types_error hguard hcases fun object struct' _ => ?_]
          · exact .trap hl'' (by simp) (by simp) (by simp)
          · rw [Instr.run,Wasm.runOperands_next rfl]
            refine Wasm.runOperands_error ?_
            rw [Instr.run,Exec.operand_next (Wasm.run_localGet hheld)]
            rfl
      · have hselect : select (sceneAt p i hosts levels) ev (E.stored? τ).isSome m h =
            choose (sceneAt p i hosts levels) ev (E.stored? τ).isSome m (.ref (some address)) (firesOn p T) h' := by
          have hpresent : Eval.present (some (.ref (some address))) h' = .ok (.ref (some address)) h' := rfl
          unfold select Semantics.operand
          simp only [bind_run,hx,hpresent,hguard,if_true,Eval.follow_some hcell]
          rfl
        obtain ⟨_,hchainT⟩ := ((hG.objects.populated hC).lookup_iff hR.resolved.inv).mp ⟨sub,hT⟩
        have hcovered := fun hnone => fires_of_covered hR.resolved hshape hm hguard hnone hchainT hext
        obtain ⟨bodies,other,hparts,hruns⟩ := types_dispatch hG hP hm hC hvalue hguard hd
        rw [hselect]
        refine choose_tied hG hA hU hm hparts (hruns hR hl'' ⟨hheld,fields,sub,chain,hcell,hheap,hT,hchain⟩ hv hcovered)
          hsuits (fun hnone hnot => ?_) hl''
        obtain ⟨arm,ha,hfires⟩ := hcovered hnone
        exact absurd hfires (hnot arm ha)
    | false =>
      have hselect : select (sceneAt p i hosts levels) ev (E.stored? τ).isSome m h =
          choose (sceneAt p i hosts levels) ev (E.stored? τ).isSome m v (firesAt v) h' := by
        unfold select Semantics.operand
        simp only [bind_run,hx,hguard]
        rfl
      obtain ⟨bodies,other,hparts,hruns⟩ := values_dispatch hG hP hm hs hvalue hguard hcount hd
      rw [hselect]
      exact choose_tied hG hA hU hm hparts (hruns hR.module (hR.parts_sound hP levels) hl''.proper hv hheld) hsuits
        (fun hnone _ => hpartial hguard hnone) hl''

/-- The code of a node runs as the node is evaluated, if that of its parts does. -/
theorem node_tied (hC : CallsAgree p exports E i hosts levels) (hτ : p.Typed id τ)
    (hcount : (p.exprs.get id).shape.children.length ≤ 0x7fffffff)
    (hpartial : ∀ m, (p.exprs.get id).shape = .select m → m.isTypeGuard = false → m.default = none →
      PartialMatch p exports) (hc : NodeCode p E L part τ (p.exprs.get id).shape code) (hl : Linked p E i L h s) :
    Tied (Ends p exports E i) (Meets p E L) (node (sceneAt p i hosts levels) ev id h)
      ((refill filler code).run (envAt i levels) s) := by
  have ht := (hR.resolved.inv.nodes id τ hτ).1
  have hkeep : ((sceneAt p i hosts levels).program.exprs.typeOf id).hasValue = τ.hasValue := by
    rw [show (sceneAt p i hosts levels).program = p from rfl,typeOf_eq hτ]
  unfold node
  rw [hkeep,show (sceneAt p i hosts levels).program = p from rfl]
  generalize hshape : (p.exprs.get id).shape = shape at hc ht hcount
  cases hc with
  | literal l =>
    rw [refill_literal,run_literal]
    exact ⟨rfl,hl.mirrors,hl.vars⟩
  | @name n v slot hslot =>
    have hget : (refill filler (.localGet slot)).run (envAt i levels) s = .ok (.next (some (h.vars v))) s :=
      Wasm.run_localGet (hl.vars v slot hslot)
    rw [hget]
    exact ⟨rfl,hl.mirrors,hl.vars⟩
  | block hseq =>
    cases ht with
    | block hts =>
      exact sequence_tied hP hA hseq hts (fun _ => rfl) hl
  | define hinit hslot =>
    cases ht with
    | define hf hvar _ => exact assign_tied hR hG hP hA hU hinit hslot ⟨_,hvar⟩ hf hl
  | assign hinit hslot =>
    cases ht with
    | assign hvar hf => exact assign_tied hR hG hP hA hU hinit hslot ⟨_,hvar⟩ hf hl
  | @call n args typeArgs callee d index codes hk hop hargs hindex =>
    cases ht with
    | call ht =>
      cases ht with
      | function hk' _ _ _ hfits =>
        cases hk.symm.trans hk'
        have hcall : call (sceneAt p i hosts levels) ev args (.function callee) =
            (operands ev args >>= Eval.call (sceneAt p i hosts levels) callee) := by
          simp only [call,sceneAt,function?_eq_some.mpr hk,hop]
        show Tied _ _ (call (sceneAt p i hosts levels) ev args (.function callee) h) _
        rw [hcall]
        exact call_tied hR hG hP hA rfl hC hk hargs hindex hfits hl
  | @operation n args typeArgs callee d op codes code hk hop hargs hcode =>
    cases ht with
    | call ht =>
      cases ht with
      | function hk' hplain hsig hreturn hfits =>
        cases hk.symm.trans hk'
        obtain ⟨ρ,hρ,htyped⟩ := hR.resolved.operation hk hplain hsig hop
        have hcall : call (sceneAt p i hosts levels) ev args (.function callee) = operation ev op d.appliedArgs.head? args := by
          simp only [call,sceneAt,function?_eq_some.mpr hk,hop]
        show Tied _ _ (call (sceneAt p i hosts levels) ev args (.function callee) h) _
        rw [hcall]
        exact operation_tied hR hG hP hA htyped hargs hfits hcode hl rfl
  | @construct n typeArgs object literal given chain struct codes hgiven hchain hstruct hfields =>
    cases ht with
    | call ht =>
      have hcall : call (sceneAt p i hosts levels) ev [literal] (.construct object) =
          (initialisers ev given (p.layout object) >>= fun vs => Eval.alloc (.object object vs)) := by
        simp only [call,sceneAt,hgiven]
      show Tied _ _ (call (sceneAt p i hosts levels) ev [literal] (.construct object) h) _
      rw [hcall]
      exact construct_tied hR hG hP hA hgiven ht hchain hstruct hfields hl rfl
  | field harg hstruct =>
    cases ht with
    | call ht => exact field_tied hR hG hP hA harg ht hstruct hl
  | @cond test yes no t y n result htest hyes hresult hvalue hno =>
    have hparts : p.Fits test .bool ∧ (∃ σ, p.Typed yes σ) ∧ ∀ id ∈ no, ∃ σ, p.Typed id σ := by
      cases ht with
      | when hf ht => exact ⟨hf,⟨_,ht⟩,by simp⟩
      | cond hf hy hn =>
        obtain ⟨σ,hσ,_⟩ := hy
        obtain ⟨ρ,hρ,_⟩ := hn
        exact ⟨hf,⟨σ,hσ⟩,fun id hm => Option.some.inj hm ▸ ⟨ρ,hρ⟩⟩
    exact cond_tied hR hG hP hA htest hyes hparts.1 hparts.2.1 hparts.2.2 hvalue hno hl
  | loop htest hbody hne =>
    cases ht with
    | loop hf hb => exact loop_tied hP hA htest hbody hne hf hb rfl hl
  | @select m stored operand value exit result dispatch hs hvalue hslot hfree hresult hkept hdispatch =>
    cases ht with
    | select hm =>
      subst hresult
      rw [typeOf_eq hm.operand] at hs
      refine select_tied hR hG hP hA hU hshape hm hs hvalue hslot hfree hkept hdispatch ?_ (hpartial m hshape) hl
      simp only [ExprShape.children,length_cons,length_append,length_map] at hcount
      omega

end Nodes

section Functions

variable {f : Func} (hR : Ready p exports E filler i) {callee : EntityId} {d : FunctionDef} {w : World} {store : Store}
  {args : List Value}
include hR

/-- Every expression of a body. -/
theorem parts_agree (hG : Grounds p E L) (hU : Unshared L) (hC : CallsAgree p exports E i hosts levels)
    (hreached : p.Reached exports callee) (hk : p.entities.kind callee = .function d) (depth : Nat) :
    PartsAgree p exports E filler i L (envAt i levels) (fun id code => CodeWithin p E L depth id code ∧ d.Covers id)
      (evalWithin (sceneAt p i hosts levels) depth) := by
  have hI := hR.resolved.inv
  induction depth with
  | zero => exact fun hc _ => hc.1.elim
  | succ depth ih =>
    intro id code τ hc hτ h s hl
    obtain ⟨hc,hcovers⟩ := hc
    have hnode : NodeCode p E L (fun id code => CodeWithin p E L depth id code ∧ d.Covers id) τ (p.exprs.get id).shape
        code := by
      have hc' : NodeCode p E L (CodeWithin p E L depth) (p.exprs.typeOf id) (p.exprs.get id).shape code := hc
      rw [typeOf_eq hτ] at hc'
      refine hc'.imp fun part hpart code hcode => ⟨hcode,?_⟩
      rcases hpart with hpart | ⟨literal,hliteral,hpart⟩
      · exact hI.covers_child hk hcovers hpart
      · exact hI.covers_child hk (hI.covers_child hk hcovers hliteral) hpart
    have hleaves : PartsLeave p E L fun id code => CodeWithin p E L depth id code ∧ d.Covers id :=
      fun hc ht => codeWithin_leaves hG depth hc.1 ht
    have hlength := hI.length_children_lt hk hcovers
    have hexprs := hR.exprs
    refine Tied.typed (node_tied hR hG hleaves ih hU hC hτ (by omega)
      (fun m hm hguard hnone => ⟨callee,d,id,m,hreached,hk,hcovers,hm,hguard,hnone⟩) hnode hl) hl.proper ?_
    exact hR.parts_sound (fun hc => codeWithin_leaves hG (depth + 1) hc) levels hc hτ

omit hR in
/-- The host answers alike. -/
theorem ask_tied (ha : HostsAgree p E i hosts) {source : Wasm.ImportName}
    (hf : f ∈ i.module.funcs.toList) (hh : f.host? = some source) (hm : Mirrors p E w store)
    (hs : StoreTyped i.module i.globals store) (hargs : AllTyped i.module store.heap args f.params) :
    Tied (Answers p exports E i) (Gives p E) (ask hosts source args w)
      (i.callHost source args store) := by
  obtain ⟨hsome,hagree⟩ := ha source
  cases hhost : i.hosts source with
  | none =>
    have hnone : hosts source = none := by simpa [hhost] using hsome
    rw [Instance.callHost_none hhost,ask,hnone]
    exact ⟨rfl,hm,.operation (by simp) (by simp) (by simp)⟩
  | some host =>
    obtain ⟨answer,hanswer⟩ : ∃ answer, hosts source = some answer := by
      simpa [hhost,Option.isSome_iff_exists] using hsome
    have hnoted : Mirrors p E { w with log := w.log.push ⟨source,args⟩ }
        { store with log := store.log.push ⟨source,args⟩ } :=
      ⟨congrArg (·.push ⟨source,args⟩) hm.log,hm.memory,hm.size,hm.cells,hm.ancestors⟩
    have htied := hagree answer host hanswer hhost f hf hh args _ _ hnoted hs.noted hargs
    have hask : ask hosts source args w = answer args { w with log := w.log.push ⟨source,args⟩ } := by
      rw [ask,hanswer]
      rfl
    rw [hask,Instance.callHost_some hhost]
    rcases htied.elim with ⟨halt,w',stop,store',ha,hr,hstop,hm'⟩ | ⟨v,w',_,store',ha,hr,rfl,hm'⟩
    · rw [ha,hr]
      exact ⟨hstop,hm',.reported hhost hr hstop⟩
    · rw [ha,hr]
      exact ⟨rfl,hm'⟩

omit hR in
/-- At the start of a body the parameters hold the arguments, and the other variables noughts. -/
theorem linked_entry {root : ExprId} (hm : Mirrors p E w store)
    (hs : StoreTyped i.module i.globals store) (hargs : AllTyped i.module store.heap args f.params)
    (hc : Compiled p E d root f L code) (hvars : d.paramVars.length = args.length) :
    Linked p E i L ⟨bindings p d args,w⟩ (Instance.entry f args store) where
  mirrors := hm
  vars v n hn := by
    obtain ⟨τ,stored,⟨mutable,hk⟩,hstored,hslot⟩ := hc.typed v n hn
    have hlength := hargs.length_eq
    -- a parameter is bound at its own place only
    have hplace : ∀ k a, (d.paramVars.zip args)[k]? = some (v, a) → k = n ∧ args[k]? = some a := by
      intro k a hka
      obtain ⟨hv,ha⟩ := getElem?_zip_eq_some.mp hka
      exact ⟨Option.some.inj ((hc.params k v hv).symm.trans hn),ha⟩
    show (args ++ f.locals.map Value.zero).toArray[n]? = some (bindings p d args v)
    unfold bindings
    rw [getElem?_toArray]
    cases hlook : (d.paramVars.zip args).lookup v with
    | some a =>
      obtain ⟨k,hka⟩ := mem_iff_getElem?.mp (mem_of_lookup hlook)
      obtain ⟨rfl,ha⟩ := hplace k a hka
      rw [List.getElem?_append_left (List.getElem?_eq_some_iff.mp ha).1,ha]
    | none =>
      have hge : args.length ≤ n := by
        by_contra hlt
        obtain ⟨u,hu⟩ : ∃ u, d.paramVars[n]? = some u := ⟨_,getElem?_eq_getElem (by omega)⟩
        cases hc.unshared u v n (hc.params n u hu) hn
        have hmem : (v, args.get ⟨n,by omega⟩) ∈ d.paramVars.zip args :=
          mem_iff_getElem?.mpr ⟨n,getElem?_zip_eq_some.mpr ⟨hu,getElem?_eq_getElem _⟩⟩
        simpa using lookup_eq_none_iff.mp hlook _ hmem
      rw [hc.slots,getElem?_append_right (by omega)] at hslot
      rw [getElem?_append_right hge,getElem?_map,hlength,hslot]
      simp only [Option.map_some,kind] at hk ⊢
      rw [hk,zero_stored hstored]
  proper := by
    rw [hc.slots]
    exact Wasm.proper_entry hs hargs

/-- A body runs as it is evaluated. -/
theorem body_tied (hC : CallsAgree p exports E i hosts levels) {n : Nat} {first root : ExprId}
    (hn : E.funcs.lookup callee = some n) (hf : E.module.funcs[n]? = some f) (hk : p.entities.kind callee = .function d)
    (hb : d.body = .expr first root) (hsig : E.Signs d f) (hm : Mirrors p E w store)
    (hs : StoreTyped i.module i.globals store) (hargs : AllTyped i.module store.heap args f.params) :
    Tied (Answers p exports E i) (Gives p E)
      (runBody (sceneAt p i hosts levels) d root args w)
      (i.runBody (i.callWithin levels) (f.refill filler) args store) := by
  have hreached := hR.lowered.reached callee n hn
  obtain ⟨d',hripe⟩ := hreached.ripe hR.resolved hR.exportsOk
  cases hk.symm.trans hripe.kind
  have hok := hR.resolved.inv.functionOk hk
  have hbody := hok.body first root hb
  obtain ⟨τ,ρ,hτ,hρ,_⟩ := hbody.done hripe.body
  obtain ⟨L,code,hc⟩ := hR.lowered.compiled callee n d first root f hn hk hb hf
  have hG : Grounds p E L := ⟨hR.resolved,hR.lowered.objects,hR.lowered.consistent,hc.typed⟩
  have hvars : d.paramVars.length = args.length := by
    rw [((hok.signed hripe.signature).vars (by simp [FunctionDef.hasBody,hb])).length_eq,hsig.params.length_eq,
      hargs.length_eq]
  have hcovers : d.Covers root := ⟨first,root,hb,hbody.tiles.le,Nat.le_refl _⟩
  have hl := linked_entry hm hs hargs hc hvars
  have hrun := discarded_tied (fun hc ht => codeWithin_leaves hG _ hc.1 ht)
    (parts_agree hR hG hc.unshared hC hreached hk (root.index + 1)) (d.returnType.any (·.hasValue)) ⟨hc.made,hcovers⟩ hτ
    hl
  have hrefill : (f.refill filler).body = [discarded p (d.returnType.any (·.hasValue)) root (refill filler code)] := by
    simp only [Func.refill,hc.body,refillAll,refill_discarded]
  have hresult : (f.refill filler).result.isSome = d.returnType.any (·.hasValue) := by
    have := hsig.value
    rwa [hρ] at this ⊢
  rw [Instance.runBody_run,show Instance.entry (f.refill filler) args store = Instance.entry f args store from rfl,hrefill,runAll_single,hresult,show i.surroundings (i.callWithin levels) = envAt i levels from rfl]
  unfold runBody eval
  rw [show (sceneAt p i hosts levels).program = p from rfl]
  rcases hrun.elim with ⟨halt,h',stop,s',hh,hr,hend⟩ | ⟨v,h',flow,s',hh,hr,rfl,hlands⟩
  · rw [hh,hr]
    exact hend
  · rw [hh,hr]
    refine ⟨?_,hlands.linked.mirrors⟩
    cases d.returnType.any (·.hasValue) <;> rfl

/-- Calls run as they are evaluated, however deep they may nest. -/
theorem calls_agree (ha : HostsAgree p E i hosts) (levels : Nat) : CallsAgree p exports E i hosts levels := by
  -- what is left to show of a function with a body, at any level
  have hdispatch : ∀ enter enter',
      (∀ callee n d f first root args w store, E.funcs.lookup callee = some n → E.module.funcs[n]? = some f →
        p.entities.kind callee = .function d → d.body = .expr first root → E.Signs d f → Mirrors p E w store →
        StoreTyped i.module i.globals store → AllTyped i.module store.heap args f.params →
        Tied (Answers p exports E i) (Gives p E)
          (enter d root args w) (enter' (f.refill filler) args store)) →
      ∀ callee n f args w store, E.funcs.lookup callee = some n → i.module.funcs[n]? = some f → Mirrors p E w store →
        StoreTyped i.module i.globals store → AllTyped i.module store.heap args f.params →
        Tied (Answers p exports E i) (Gives p E)
          (dispatch p hosts enter callee args w) (i.dispatch enter' n args store) := by
    intro enter enter' henter callee n f' args w store hn hf' hm hs hargs
    obtain ⟨d,f,hk,hf,hsig⟩ := hR.lowered.consistent.entry callee n hn
    rw [hR.func,hf] at hf'
    cases hf'
    have hfn : i.module.funcs[n]? = some (f.refill filler) := by rw [hR.func,hf]; rfl
    have hcount : args.length = d.paramTypes.length := by
      rw [hargs.length_eq]
      exact hsig.params.length_eq.symm
    have hhost := hsig.host
    unfold dispatch
    rw [function?_eq_some.mpr hk]
    simp only [hcount,ne_eq,not_true_eq_false,if_false]
    cases hb : d.body with
    | host module name =>
      rw [hb] at hhost
      rw [Instance.dispatch_host hfn hargs.length_eq hhost]
      exact ask_tied ha (Array.mem_toList_iff.mpr (Array.mem_of_getElem? hfn)) hhost hm hs hargs
    | expr first root =>
      rw [hb] at hhost
      rw [Instance.dispatch_defined hfn hargs.length_eq hhost]
      exact henter callee n d f first root args w store hn hf hk hb hsig hm hs hargs
    | intrinsic op =>
      obtain ⟨d',hripe⟩ := (hR.lowered.reached callee n hn).ripe hR.resolved hR.exportsOk
      cases hk.symm.trans hripe.kind
      have hown := hripe.own
      simp [FunctionDef.intrinsic?,hb] at hown
  induction levels with
  | zero => exact hdispatch _ _ fun _ _ _ _ _ _ _ _ _ _ _ _ _ _ hm _ _ => ⟨rfl,hm,.exhausted⟩
  | succ levels ih =>
    exact hdispatch _ _ fun callee n d f first root args w store hn hf hk hb hsig hm hs hargs =>
      body_tied hR ih hn hf hk hb hsig hm hs hargs

end Functions

end Semantics

end FormCompiler
