import FormCompiler.Proofs.Semantics.Dispatch
import FormCompiler.Proofs.Semantics.Runs

/-! Matches, wherever a run gets to one. The states of a run are those that correspond to one of evaluation: every call
starts in such a state, and the code of every expression gets from one to another. In them every object carries the
ancestors of its type, so the tests of the arms of a match on types tell its type, one after another. -/

namespace FormCompiler

open Wasm (Activation AllTyped Exec Instance Instr Proper StoreTyped Value resultTyped)
open Lower

namespace Lower

/-- The object at an address is of a type of the program. -/
def IsObject (E : Emission) (heap : Wasm.Heap) (address : Nat) (T : EntityId) : Prop :=
  ∃ struct fields, heap[address]? = some (.struct struct fields) ∧ E.structs.lookup T = some struct

end Lower

namespace Semantics

/-- Whether the type of an arm is an ancestor of a type. -/
def covers (p : Program) (T : EntityId) (case : Arm) : Prop :=
  ∃ C, case.patternType = some (.object C) ∧ p.entities.Extends T C

section Guards

variable {p : Program} {exports : List (String × EntityId)} {E : Emission} {L : Layout} {i : Instance} {d : FunctionDef}
  {f : EntityId} (hR : Ready p exports E .unreachable i) (hG : Grounds p E L)
  (hU : Unshared L) (hf : p.Reached exports f)
  (hk : p.entities.kind f = .function d) {hosts : Hosts} (ha : HostsAgree p E i hosts) {id : ExprId} {code : Instr}
  {τ : Ty} {h : State} {s : Activation}
include hR hG hU hf hk ha

/-- Code of the program gets from states of a run to states of a run. -/
theorem stands_lands (levels : Nat) (hc : Stands p E L id code) (hid : d.Covers id) (hτ : p.Typed id τ)
    (hl : Linked p E i L h s) : (∃ stop t, code.run (envAt i levels) s = .error stop t) ∨ ∃ value h' t,
      code.run (envAt i levels) s = .ok (.next value) t ∧ Linked p E i L h' t ∧
      resultTyped i.module t.store.heap value (E.stored? τ) := by
  obtain ⟨depth,hc⟩ := hc
  have htied := parts_agree hR hG hU (calls_agree hR ha levels) hf hk depth ⟨hc,hid⟩ hτ hl
  rw [Wasm.refill_unreachable] at htied
  rcases htied.elim with ⟨_,_,stop,t,_,hr,_⟩ | ⟨value,h',_,t,_,hr,rfl,hl',_,hv⟩
  · exact .inl ⟨stop,t,hr⟩
  · exact .inr ⟨value,h',t,hr,hl',hv⟩

/-- The code of a match on types in a state of a run: its parts, and how it chooses among them. -/
theorem type_select {m : Match} (hc : Stands p E L id code) (hid : d.Covers id) (hτ : p.Typed id τ)
    (hshape : (p.exprs.get id).shape = .select m) (hguard : m.isTypeGuard = true) :
    ∃ operand value bodies other, MatchParts (Stands p E L) m value bodies other ∧ ∀ levels h s, Linked p E i L h s →
      (∃ stop t, value.run (envAt i (levels + 1)) s = .error stop t ∧
        code.run (envAt i (levels + 1)) s = .error stop t) ∨
      ∃ v t, value.run (envAt i (levels + 1)) s = .ok (.next (some v)) t ∧ (v = .ref none ∨
        ∃ address T, v = .ref (some address) ∧ IsObject E t.store.heap address T ∧
          Chooses (envAt i (levels + 1)) L m τ.hasValue bodies other (covers p T) v
            { t with locals := t.locals.setIfInBounds operand v } (code.run (envAt i (levels + 1)) s)) := by
  have hI := hR.resolved.inv
  have hnode := stands_node hc hτ
  have htyped := (hI.nodes id τ hτ).1
  rw [hshape] at hnode htyped
  cases htyped with
  | select hm =>
  obtain ⟨C,rfl⟩ := hm.guard hguard
  obtain _ | _ | _ | _ | _ | _ | _ | _ | _ | _ | _ |
    @⟨_,stored,operand,value,exit,_,dispatch,hstored,hvalue,hslot,hfree,rfl,hkept,hdispatch⟩ := hnode
  rw [typeOf_eq hm.operand] at hstored
  obtain ⟨struct,hC,rfl⟩ := Option.map_eq_some_iff.mp hstored
  obtain ⟨bodies,other,hparts,hruns⟩ := types_dispatch hG (stands_leaves hG) hm hC hkept hguard hdispatch
  refine ⟨operand,value,bodies,other,⟨hvalue,hparts.arms,hparts.default⟩,fun levels h s hl => ?_⟩
  rw [Instr.run_seq]
  rcases stands_lands hR hG hU hf hk ha (levels + 1) hvalue (hI.covers_child hk hid (by simp [hshape,ExprShape.children]))
    hm.operand hl with ⟨stop,t,hr⟩ | ⟨w,h',t,hr,hl',hv⟩
  · refine .inl ⟨stop,t,hr,Wasm.runAll_error ?_⟩
    rw [Instr.run,Exec.operand_error hr]
  rw [hstored] at hv
  cases w with
  | none => exact hv.elim
  | some v =>
  refine .inr ⟨v,t,hr,?_⟩
  obtain ⟨hset,hl'',hheld⟩ := hl'.setSlot hslot hfree hv
  rcases object_cell hR hl'.mirrors hC hv with rfl | ⟨address,T,fields,sub,chain,rfl,hcell,hheap,hT,hchain,hext⟩
  · exact .inl rfl
  have hset' : (Instr.localSet operand value).run (envAt i (levels + 1)) s =
      .ok (.next none) { t with locals := t.locals.setIfInBounds operand (.ref (some address)) } := by
    rw [Instr.run,Exec.operand_next hr,hset]
  refine .inr ⟨address,T,rfl,⟨sub,_,hheap,hT⟩,?_⟩
  obtain ⟨_,hchainT⟩ := ((hG.objects.populated hC).lookup_iff hI).mp ⟨sub,hT⟩
  have hchooses := (hruns hR hl'' ⟨hheld,fields,sub,chain,hcell,hheap,hT,hchain⟩ hv fun hnone =>
    fires_of_covered hR.resolved hshape hm hguard hnone hchainT hext).chooses (Nat.succ_ne_zero levels)
  simp only [← Wasm.refillAll_eq_map,Wasm.refillAll_unreachable,Wasm.refill_unreachable] at hchooses
  have hcovers : (fun case => firesOn p T case = true) = covers p T := by
    funext case
    unfold firesOn covers
    rcases case.patternType with _ | ⟨_ | _ | _ | _⟩ <;> simp [Program.extends?,extends?_eq hI]
  rw [Wasm.runAll_next hset',runAll_single,← hkept,← hcovers]
  exact hchooses

end Guards

end Semantics

open Semantics

/-- Wherever a run gets to a match on types, the code of the match runs the operand once. If that gives an object, it
does what the arm of the first case does whose type is an ancestor of the type of the object, with the variable of the
arm set to the same reference; without such a case, what the arm for all other cases does. -/
theorem compiled_type_match {library : List SourceFile} {file source : String} {artifact : Artifact}
    (h : compile library file source = .ok artifact) :
    ∃ exports p E start fresh, Built library file source artifact exports p E start fresh ∧
      ∀ machine, Carries p start machine → HostsMirrored p E machine →
        -- calls of exported functions leave worlds of the program
        (∀ store, machine.Session fresh store →
          (∃ w, Mirrors p E w store) ∧ StoreTyped machine.module machine.globals store) ∧
        ∀ f n d first root func, E.funcs.lookup f = some n → p.entities.kind f = .function d →
          d.body = .expr first root → artifact.module.funcs[n]? = some func →
          ∃ L code, Compiled p E d root func L code ∧
            -- a call starts in a state of a run, and expressions get from one to another
            (∀ w store args, Mirrors p E w store → StoreTyped machine.module machine.globals store →
              AllTyped machine.module store.heap args func.params →
              ∃ h, Linked p E machine L h (Instance.entry func args store)) ∧
            (∀ levels id part h s flow t, Stands p E L id part → d.Covers id → Linked p E machine L h s →
              part.run (envAt machine levels) s = .ok flow t → ∃ h', Linked p E machine L h' t) ∧
            ∀ id m, d.Covers id → (p.exprs.get id).shape = .select m → m.isTypeGuard = true →
              (∃ op, Stands p E L id op ∧ ∃ i ∈ func.body, op.Within i) ∧
              ∀ op, Stands p E L id op →
                ∃ operand value bodies other, MatchParts (Stands p E L) m value bodies other ∧
                  ∀ levels h s, Linked p E machine L h s →
                    (∃ stop t, value.run (envAt machine (levels + 1)) s = .error stop t ∧
                      op.run (envAt machine (levels + 1)) s = .error stop t) ∨
                    ∃ v t, value.run (envAt machine (levels + 1)) s = .ok (.next (some v)) t ∧ (v = .ref none ∨
                      ∃ address T, v = .ref (some address) ∧ IsObject E t.store.heap address T ∧
                        Chooses (envAt machine (levels + 1)) L m (p.exprs.typeOf id).hasValue bodies other (covers p T)
                          v { t with locals := t.locals.setIfInBounds operand v }
                          (op.run (envAt machine (levels + 1)) s)) := by
  obtain ⟨exports,p,E,start,hB,_,hw,he,hE,hready⟩ := exists_ready h
  refine ⟨exports,p,E,start,_,hB,fun machine hcarries hmirrored => ?_⟩
  obtain ⟨hosts,hagree⟩ := hmirrored.exists_hosts
  have hR := hready machine hcarries
  refine ⟨fun store => session_mirrored hR hagree,fun f n d first root func hn hk hb hf => ?_⟩
  have hreached := hE.reached f n hn
  rw [← hB.module] at hf
  obtain ⟨d',hripe⟩ := hreached.ripe hw he
  cases EntityKind.function.inj (hk.symm.trans hripe.kind)
  obtain ⟨L,code,hc⟩ := hE.compiled f n d first root func hn hk hb hf
  have hG : Grounds p E L := ⟨hw,hE.objects,hE.consistent,hc.typed⟩
  refine ⟨L,code,hc,fun w store args hmirrors hs hargs => ?_,?_,fun id m hid hshape hguard => ?_⟩
  · obtain ⟨d',func',hk',hf',hsig⟩ := hE.consistent.entry f n hn
    cases hk.symm.trans hk'
    cases hf.symm.trans hf'
    refine ⟨_,linked_entry hmirrors hs hargs hc ?_⟩
    rw [(((hw.inv.functionOk hk).signed hripe.signature).vars (by simp [FunctionDef.hasBody,hb])).length_eq,
      hsig.params.length_eq,hargs.length_eq]
  · intro levels id part h s flow t hpart hid hl hr
    obtain ⟨τ,hτ⟩ := hw.inv.typed_of_covers hk hripe.body hid
    rcases stands_lands hR hG hc.unshared hreached hk hagree levels hpart hid hτ hl with ⟨_,_,hr'⟩ | ⟨_,h',_,hr',hl',_⟩
    · cases hr.symm.trans hr'
    · cases hr.symm.trans hr'
      exact ⟨h',hl'⟩
  · obtain ⟨τ,hτ⟩ := hw.inv.typed_of_covers hk hripe.body hid
    refine ⟨hc.inside hw hripe hb hid (by simp [hshape]),fun op hop => ?_⟩
    rw [typeOf_eq hτ]
    exact type_select hR hG hc.unshared hreached hk hagree hop hid hτ hshape hguard

/-- Whether a function of the sample is one match and takes what `pick` takes. -/
private def isMatch (name : String) (guard : Bool) : Bool :=
  (compile [] "main.vast" dispatchSource).toOption.any fun artifact => okAnd (fun exports p =>
    (Lower.program exports p {}).toOption.any fun (_, E) => (exports.lookup name).any fun f =>
      (E.funcs.lookup f).any fun n => (p.entities.function? f).any fun d => artifact.module.funcs[n]?.any fun func =>
        match d.body with
        | .expr first root =>
          match (p.exprs.get root).shape with
          | .select m => first.index ≤ root.index && m.isTypeGuard == guard && m.arms.length < 0x7fffffff &&
              (artifact.module.exported? "pick").any (·.2.params = func.params)
          | _ => false
        | _ => false) (checkSource [] "main.vast" dispatchSource Program.initial)

namespace Sample

variable (S : Sample)

private theorem exists_match {name : String} {guard : Bool} (h : isMatch name guard = true) :
    ∃ f n d first root func m, S.E.funcs.lookup f = some n ∧ S.p.entities.kind f = .function d ∧
      d.body = .expr first root ∧ d.Covers root ∧ S.artifact.module.funcs[n]? = some func ∧
      (S.p.exprs.get root).shape = .select m ∧ m.isTypeGuard = guard ∧ m.arms.length < 0x7fffffff ∧
      AllTyped S.artifact.module S.made.heap [S.object] func.params := by
  obtain ⟨_,ha,h⟩ := exists_of_any h
  cases S.compiled.symm.trans ha
  obtain ⟨_,_,hp,h⟩ := okAnd_iff.mp h
  cases S.built.checked.symm.trans hp
  obtain ⟨_,hE,h⟩ := exists_of_any h
  cases S.built.lowered.symm.trans hE
  simp only [Option.any_eq_true,EntityTable.function?_eq_some] at h
  obtain ⟨f,_,n,hn,d,hk,func,hfunc,h⟩ := h
  split at h
  · rename_i first root hb
    split at h
    · rename_i m hm
      simp only [Bool.and_eq_true,decide_eq_true_eq,beq_iff_eq,Option.any_eq_true] at h
      obtain ⟨⟨⟨hle,hguard⟩,hcount⟩,pick,hpick,hparams⟩ := h
      obtain ⟨_,hpick',hargs⟩ := S.accepts
      cases hpick.symm.trans hpick'
      exact ⟨f,n,d,first,root,func,m,hn,hk,hb,⟨first,root,hb,hle,Nat.le_refl _⟩,hfunc,hm,hguard,hcount,hparams ▸ hargs⟩
    · cases h
  · cases h

private theorem storeTyped : StoreTyped S.artifact.module S.start.globals S.made := by
  obtain ⟨_,_,_,_,hB,_,_,_,_,hready⟩ := exists_ready S.compiled
  obtain ⟨rfl,rfl,rfl,rfl,hfirst⟩ := S.built.unique hB
  exact (session_mirrored (hready _ S.carries) keeping_agrees (hfirst ▸ S.session)).2

end Sample

theorem compiled_type_match_sample : ∃ (S : Sample) (func : Wasm.Func) (root : ExprId) (m : Match) (L : Layout)
    (op value : Instr) (operand : Nat) (bodies : List Instr) (other : Instr), (S.p.exprs.get root).shape = .select m ∧
    Stands S.p S.E L root op ∧ MatchParts (Stands S.p S.E L) m value bodies other ∧
    let env := envAt (keeping S.artifact.module S.start.globals S.type) 1
    let s := Instance.entry func [S.object] S.made
    (∃ stop t, value.run env s = .error stop t ∧ op.run env s = .error stop t) ∨
    ∃ v t, value.run env s = .ok (.next (some v)) t ∧ (v = .ref none ∨
      ∃ address T, v = .ref (some address) ∧ IsObject S.E t.store.heap address T ∧
        Chooses env L m (S.p.exprs.typeOf root).hasValue bodies other (covers S.p T) v
          { t with locals := t.locals.setIfInBounds operand v } (op.run env s)) := by
  obtain ⟨S⟩ := nonempty_sample
  obtain ⟨f,n,d,begins,root,func,m,hn,hk,hb,hid,hf,hshape,hguard,_,hargs⟩ :=
    S.exists_match (by decide +kernel : isMatch "pick" true = true)
  obtain ⟨_,_,_,_,_,hB,hmachine⟩ := compiled_type_match S.compiled
  obtain ⟨rfl,rfl,rfl,rfl,rfl⟩ := S.built.unique hB
  obtain ⟨hsession,hmatches⟩ := hmachine _ S.carries keeping_agrees.mirrored
  obtain ⟨L,code,hc,hentry,_,hselect⟩ := hmatches f n d begins root func hn hk hb hf
  obtain ⟨⟨op,hop,_⟩,hruns⟩ := hselect root m hid hshape hguard
  obtain ⟨operand,value,bodies,other,hparts,hchoose⟩ := hruns op hop
  obtain ⟨⟨w,hw⟩,hs⟩ := hsession S.made S.session
  obtain ⟨_,hl⟩ := hentry w S.made [S.object] hw hs hargs
  exact ⟨S,func,root,m,L,op,value,operand,bodies,other,hshape,hop,hparts,hchoose 0 _ _ hl⟩

/-- The code of a match on values runs the operand once, and then does what the arm of the first case does whose literal
equals the value, with the variable of the arm set to it. Without such a case it does what the arm for all other cases
does, and traps if there is none. -/
theorem compiled_literal_match {library : List SourceFile} {file source : String} {artifact : Artifact}
    (h : compile library file source = .ok artifact) :
    ∃ exports p E, checkSource library file source Program.initial = .ok exports p ∧
      Lower.program exports p {} = .ok ((), E) ∧ E.module = artifact.module ∧
      ∀ f n d first root func id m, E.funcs.lookup f = some n → p.entities.kind f = .function d →
        d.body = .expr first root → artifact.module.funcs[n]? = some func → d.Covers id →
        (p.exprs.get id).shape = .select m → m.isTypeGuard = false → m.arms.length < 0x7fffffff →
        ∃ L code, Compiled p E d root func L code ∧ (∃ op, Stands p E L id op ∧ ∃ i ∈ func.body, op.Within i) ∧
          ∀ op, Stands p E L id op → ∃ operand value bodies other, MatchParts (Stands p E L) m value bodies other ∧
            ∀ (machine : Instance) (levels : Nat), machine.module = artifact.module → machine.HostsTyped →
              ∀ s, Proper ⟨machine.module,L.slots⟩ machine.globals s →
                (∃ stop t, value.run (envAt machine (levels + 1)) s = .error stop t ∧
                  op.run (envAt machine (levels + 1)) s = .error stop t) ∨
                ∃ v t, value.run (envAt machine (levels + 1)) s = .ok (.next (some v)) t ∧
                  Chooses (envAt machine (levels + 1)) L m (p.exprs.typeOf id).hasValue bodies other
                    (fun case => firesAt v case = true) v { t with locals := t.locals.setIfInBounds operand v }
                    (op.run (envAt machine (levels + 1)) s) := by
  obtain ⟨p,exports,E,hw,he,hE,hm,hcheck,hprogram⟩ := lowered_of_compile h
  refine ⟨exports,p,E,hcheck,hprogram,hm,?_⟩
  intro f n d first root func id m hn hk hb hf hid hshape hguard hcount
  obtain ⟨⟨τ,hτ⟩,L,code,hc,hG,hop⟩ :=
    node_lowered hw he hE hn hk hb (hm ▸ hf) hid (fun given hgiven => by rw [hshape] at hgiven; cases hgiven)
  refine ⟨L,code,hc,hop,fun op hstands => ?_⟩
  have hnode := stands_node hstands hτ
  have htyped := (hw.inv.nodes id τ hτ).1
  rw [hshape] at hnode htyped
  cases htyped with
  | select hmatch =>
    obtain ⟨operand,value,bodies,other,hparts,hruns⟩ := literal_select hG (stands_leaves hG) hmatch hnode hguard hcount
    refine ⟨operand,value,bodies,other,hparts,fun machine levels hmodule hhosts s hs => ?_⟩
    rw [typeOf_eq hτ]
    have hmodule' := hmodule.trans hm.symm
    exact hruns machine levels hmodule' (stands_sound hw he hE hG hmodule' hhosts (levels + 1)) s hs

theorem compiled_literal_match_sample : ∃ (S : Sample) (func : Wasm.Func) (root : ExprId) (m : Match) (L : Layout)
    (op value : Instr) (operand : Nat) (bodies : List Instr) (other : Instr), (S.p.exprs.get root).shape = .select m ∧
    Stands S.p S.E L root op ∧ MatchParts (Stands S.p S.E L) m value bodies other ∧
    let env := envAt (keeping S.artifact.module S.start.globals S.type) 1
    let s := Instance.entry func [S.object] S.made
    (∃ stop t, value.run env s = .error stop t ∧ op.run env s = .error stop t) ∨
    ∃ v t, value.run env s = .ok (.next (some v)) t ∧
      Chooses env L m (S.p.exprs.typeOf root).hasValue bodies other (fun case => firesAt v case = true) v
        { t with locals := t.locals.setIfInBounds operand v } (op.run env s) := by
  obtain ⟨S⟩ := nonempty_sample
  obtain ⟨f,n,d,begins,root,func,m,hn,hk,hb,hid,hf,hshape,hguard,hcount,hargs⟩ :=
    S.exists_match (by decide +kernel : isMatch "rate" false = true)
  obtain ⟨_,_,_,hp,hE,_,hmatches⟩ := compiled_literal_match S.compiled
  cases S.built.checked.symm.trans hp
  cases S.built.lowered.symm.trans hE
  obtain ⟨L,code,hc,⟨op,hop,_⟩,hruns⟩ := hmatches f n d begins root func root m hn hk hb hf hid hshape hguard hcount
  obtain ⟨operand,value,bodies,other,hparts,hchoose⟩ := hruns op hop
  refine ⟨S,func,root,m,L,op,value,operand,bodies,other,hshape,hop,hparts,
    hchoose (keeping S.artifact.module S.start.globals S.type) 0 rfl S.carries.hosts _ ?_⟩
  rw [hc.slots]
  exact Wasm.proper_entry (i := keeping S.artifact.module S.start.globals S.type) S.storeTyped hargs

end FormCompiler
