import FormCompiler.Proofs.Lowering.Encoding
import FormCompiler.Proofs.Semantics.Dispatch

/-! What the functions of a module hold. There is one for each function that the exported ones reach, and besides them
only those that choose among the cases of matches; and what the code of a module refers to is there. -/

namespace FormCompiler

open List

open Wasm (Func Instr Module ValueType)

namespace Wasm

variable {c : Context} {x : Exits} {i j : Instr} {is : List Instr} {e : Ending} {m : Module}

private theorem endings?_mem (h : endings? c x is = some e) (hi : i ∈ is) : ∃ e, i.ending? c x = some e := by
  induction is with
  | nil => cases hi
  | cons j js ih =>
    rcases endings?_cons.mp h with ⟨rfl,hj⟩ | ⟨_,hj,hjs⟩
    · exact ⟨e,mem_singleton.mp hi ▸ hj⟩
    · rcases mem_cons.mp hi with rfl | hi
      · exact ⟨_,hj⟩
      · exact ih hjs hi

private theorem operands?_mem {ts : List ValueType} (h : operands? c is = some ts) (hi : i ∈ is) :
    ∃ e, i.ending? c {} = some e := by
  induction is generalizing ts with
  | nil => cases hi
  | cons j js ih =>
    obtain ⟨t,hj,rest,hjs,_⟩ := operands?_cons.mp h
    rcases mem_cons.mp hi with rfl | hi
    · exact ⟨_,hj⟩
    · exact ih hjs hi

/-- What a typed instruction is made of is typed. -/
theorem Instr.typed_part (h : j.ending? c x = some e) (hi : i ∈ j.parts) : ∃ x e, i.ending? c x = some e := by
  cases j with
  | block =>
    obtain ⟨⟨_,hb,_⟩,_⟩ := ending?_block.mp h
    exact ⟨_,endings?_mem hb hi⟩
  | loop =>
    obtain ⟨⟨_,hb,_⟩,_⟩ := ending?_loop.mp h
    exact ⟨_,endings?_mem hb hi⟩
  | seq => exact ⟨x,endings?_mem h hi⟩
  | cond =>
    obtain ⟨ht,⟨_,hy,_⟩,⟨_,hn,_⟩,_⟩ := ending?_cond.mp h
    rcases mem_cons.mp hi with rfl | hi
    · exact ⟨_,_,ht⟩
    · exact ⟨x,(mem_append.mp hi).elim (endings?_mem hy) (endings?_mem hn)⟩
  | call | structNew | arrayNewFixed =>
    simp only [Instr.parts,Instr.ending?,Option.bind_eq_bind,Option.bind_eq_some_iff] at h hi
    obtain ⟨_,_,_,h,_⟩ := h
    exact ⟨{},operands?_mem h hi⟩
  | br _ value | ret value =>
    cases value with
    | none => cases hi
    | some value =>
      rw [Instr.ending?] at h
      simp only [Instr.parts,mem_singleton,Option.bind_eq_bind,Option.bind_eq_some_iff] at h hi
      grind
  | _ =>
    simp only [Instr.parts,Instr.ending?,Option.bind_eq_bind,Option.bind_eq_some_iff,mem_cons,
      not_mem_nil,or_false] at h hi
    try grind

private theorem Instr.typed_within (h : j.ending? c x = some e) (hi : i.Within j) : ∃ x e, i.ending? c x = some e := by
  induction hi using Relation.ReflTransGen.head_induction_on with
  | refl => exact ⟨x,e,h⟩
  | head hi _ ih =>
    obtain ⟨_,_,h⟩ := ih
    exact Instr.typed_part h hi

/-- All that stands in the body of a function is typed. -/
theorem Func.typed_within {f : Func} (h : f.typed m = true) (hj : j ∈ f.body) (hi : i.Within j) :
    ∃ x e, i.ending? ⟨m,f.params ++ f.locals⟩ x = some e := by
  unfold Func.typed at h
  split at h
  · obtain ⟨_,hj⟩ := endings?_mem ‹_› hj
    exact Instr.typed_within hj hi
  · cases h

/-! ### Code without references -/

def ValueType.isRef : ValueType → Bool
  | .ref _ => true
  | _ => false

def Instr.frameType? : Instr → Option ValueType
  | .block _ result _ | .cond result _ _ _ => result
  | _ => none

/-- Whether an instruction has to do with references, its parts apart. -/
def Instr.isManaged : Instr → Bool
  | .structNew .. | .structGet .. | .refCast .. | .arrayNewFixed .. | .arrayNewDefault .. | .arrayGet .. | .arraySet ..
  | .arrayLen .. => true
  | i => i.frameType?.any (·.isRef)

theorem ValueType.isRef_of_isKnown {t : ValueType} (hm : m.types = #[]) (h : t.isKnown m = true) :
    t.isRef = false := by
  cases t <;> simp_all [ValueType.isKnown,ValueType.isRef]

/-- Without types, typed code has nothing to do with references. -/
theorem Instr.not_managed {locals : List ValueType} (hm : m.types = #[])
    (h : i.ending? ⟨m,locals⟩ x = some e) : i.isManaged = false := by
  have hframe {result : Option ValueType} (hknown : result.all (·.isKnown m) = true) :
      result.any (·.isRef) = false := by
    cases result with
    | none => rfl
    | some t => exact ValueType.isRef_of_isKnown hm hknown
  cases i with
  | block =>
    obtain ⟨_,hknown,_⟩ := ending?_block.mp h
    exact hframe hknown
  | cond =>
    obtain ⟨_,_,_,hknown,_⟩ := ending?_cond.mp h
    exact hframe hknown
  | refCast =>
    obtain ⟨_,_,hlt,_⟩ := ending?_refCast.mp h
    simp [hm] at hlt
  | arrayLen =>
    obtain ⟨_,_,_,ha,_⟩ := ending?_arrayLen.mp h
    simp [Module.array?,hm] at ha
  | structNew | structGet | arrayNewFixed | arrayNewDefault | arrayGet | arraySet =>
    simp [Instr.ending?,Module.struct?,Module.array?,hm] at h
  | _ => rfl

private theorem length_of_allFit {founds wanteds : List ValueType} (h : allFit m founds wanteds = true) :
    founds.length = wanteds.length := by
  induction founds generalizing wanteds with
  | nil => cases wanteds <;> simp_all [allFit]
  | cons t founds ih =>
    cases wanteds with
    | nil => simp [allFit] at h
    | cons w wanteds =>
      simp only [allFit,Bool.and_eq_true] at h
      simp [ih h.2]

end Wasm

open Semantics

namespace Lower

variable {p : Program} {exports : List (String × EntityId)} {E : Emission}

/-- Every function that is reached has a place, since the call that reaches it has code. -/
theorem Lowered.complete (hw : p.WellResolved) (he : p.ExportsOk exports) (hE : Lowered p exports E) {g : EntityId}
    (h : p.Reached exports g) : ∃ n, E.funcs.lookup g = some n := by
  induction h with
  | exported hm =>
    obtain ⟨n,_,hn,_⟩ := hE.exported _ _ hm
    exact ⟨n,hn⟩
  | @called f g d node _ hk hc hcall ih =>
    obtain ⟨n,hn⟩ := ih
    obtain ⟨_,func,hk',hf,_⟩ := hE.consistent.entry f n hn
    obtain ⟨first,root,hb,_⟩ := id hc
    obtain ⟨_,_,_,_,hshape,hkg,hop⟩ := hcall
    obtain ⟨⟨τ,hτ⟩,L,_,_,_,op,hop',_⟩ := node_lowered hw he hE hn hk hb hf hc (by simp [hshape])
    have hnode := stands_node hop' hτ
    rw [hshape] at hnode
    cases hnode with
    | call _ _ _ hn => exact ⟨_,hn⟩
    | operation hkg' hop' =>
      cases hkg.symm.trans hkg'
      cases hop.symm.trans hop'

/-- The functions of a finished emission, all of them accounted for. -/
structure Accounted (p : Program) (exports : List (String × EntityId)) (E : Emission) : Prop where
  /-- Functions of the program have places if they are reached, and none of these is a provided operation. -/
  reached : ∀ g, (∃ n, E.funcs.lookup g = some n) ↔ p.Reached exports g
  own : ∀ g, p.Reached exports g → ∃ d, p.entities.kind g = .function d ∧ d.intrinsic? = none
  /-- Each place belongs to one of them, to one match on values in them, or to the test for ancestors. -/
  counted : ∃ ledger, E.Census p ledger ∧ (ledger.map (·.1)).Nodup ∧ ∀ x, x ∈ ledger.map (·.1) ↔ p.ValueMatch x ∧
    ∃ g d, p.Reached exports g ∧ p.entities.kind g = .function d ∧ d.Covers x
  tester : ∀ n, E.extendsFunction = some n → ∃ f, E.module.funcs[n]? = some f ∧ E.Tester f
  /-- From a point on where no function has a body, each one that is not imported gets its own once. -/
  defined : ∃ s order, Defining p order s E ∧ order.Nodup ∧ (∀ f ∈ s.module.funcs, f.locals = [] ∧ f.body = []) ∧
    ∀ g d first root, p.Reached exports g → p.entities.kind g = .function d → d.body = .expr first root → g ∈ order
  bodies : ∀ g n d first root, E.funcs.lookup g = some n → p.entities.kind g = .function d →
    d.body = .expr first root → ∃ f L code, E.module.funcs[n]? = some f ∧ Compiled p E d root f L code
  imported : ∀ f ∈ E.module.funcs, f.host? ≠ none → f.locals = [] ∧ f.body = []
  calls : ∀ f ∈ E.module.funcs, ∀ i ∈ f.body, ∀ function args, (Instr.call function args).Within i →
    ∃ g, E.module.funcs[function]? = some g ∧ args.length = g.params.length

private theorem Lowered.accounted (hw : p.WellResolved) (he : p.ExportsOk exports) (hE : Lowered p exports E) :
    Accounted p exports E where
  reached g := ⟨fun ⟨n,hn⟩ => hE.reached g n hn,hE.complete hw he⟩
  own g hg := (hg.ripe hw he).imp fun _ hr => ⟨hr.kind,hr.own⟩
  counted := by
    obtain ⟨ledger,h1,h2,h3⟩ := hE.counted
    refine ⟨ledger,h1,h2,fun x => (h3 x).trans (and_congr_right fun _ => ⟨?_,?_⟩)⟩
    · rintro ⟨g,n,d,hn,hk,hx⟩
      exact ⟨g,d,hE.reached g n hn,hk,hx⟩
    · rintro ⟨g,d,hg,hk,hx⟩
      obtain ⟨n,hn⟩ := hE.complete hw he hg
      exact ⟨g,n,d,hn,hk,hx⟩
  tester n hn := by
    obtain ⟨_,ids,exit,top,hi,hne,hf⟩ := hE.consistent.tester n hn
    exact ⟨_,hf,ids,exit,top,hi,hne,rfl⟩
  defined := by
    obtain ⟨s,order,h1,h2,h3,_,h4⟩ := hE.defined
    refine ⟨s,order,h1,h2,h3,fun g d first root hg hk hb => ?_⟩
    obtain ⟨n,hn⟩ := hE.complete hw he hg
    exact h4 g n d first root hn hk hb
  bodies g n d first root hn hk hb := by
    obtain ⟨_,f,_,hf,_⟩ := hE.consistent.entry g n hn
    obtain ⟨L,code,hc⟩ := hE.compiled g n d first root f hn hk hb hf
    exact ⟨f,L,code,hf,hc⟩
  imported f hf := by
    obtain ⟨n,hn⟩ := Array.mem_iff_getElem?.mp hf
    exact hE.bare n f hn
  calls f hf i hi function args hin := by
    obtain ⟨n,hn⟩ := Array.mem_iff_getElem?.mp hf
    have hhost : f.host? = none := by
      by_contra hh
      simp [(hE.bare n f hn hh).2] at hi
    obtain ⟨x,e,ht⟩ := Wasm.Func.typed_within ((hE.func_wellTyped hw he hn).body hhost) hi hin
    obtain ⟨g,hg,founds,hargs,hfit,_⟩ := Wasm.ending?_call.mp ht
    exact ⟨g,hg,(Wasm.operands?_length hargs).symm.trans (Wasm.length_of_allFit hfit)⟩

end Lower

/-- The functions of a module are those that the exported ones reach, one for each match on values in them, and at most
one test for ancestors. Each gets its body once, and calls go to functions that are there, with operands for all of their
parameters. -/
theorem functions_accounted {library : List SourceFile} {file source : String} {exports : List (String × EntityId)}
    {p : Program} {E : Emission} (hc : checkSource library file source Program.initial = .ok exports p)
    (hE : Lower.program exports p {} = .ok ((), E)) : Lower.Accounted p exports E := by
  obtain ⟨hw,he⟩ := Program.wellResolved_of_checkSource hc
  exact (Lower.lowered_of_program hw he hE).accounted hw he

theorem functions_accounted_sample : ∃ exports p E, checkSource [] "main.vast" sampleSource Program.initial =
    .ok exports p ∧ Lower.program exports p {} = .ok ((), E) ∧ Lower.Accounted p exports E := by
  obtain ⟨artifact,h⟩ := sample_compiles
  obtain ⟨p,exports,E,_,_,_,_,hc,hE⟩ := lowered_of_compile h
  exact ⟨exports,p,E,hc,hE,functions_accounted hc hE⟩

/-- A module that needs no garbage collection has no references: neither functions nor frames have a type of that kind,
and no code makes, reads or casts one. -/
theorem references_need_types {library : List SourceFile} {file source : String} {exports : List (String × EntityId)}
    {p : Program} {E : Emission} (hc : checkSource library file source Program.initial = .ok exports p)
    (hE : Lower.program exports p {} = .ok ((), E)) (hgc : E.module.usesGc = false) :
    E.module.globals = #[] ∧ ∀ f ∈ E.module.funcs, (∀ t ∈ f.params ++ f.result.toList ++ f.locals, t.isRef = false) ∧
      ∀ i ∈ f.body, ∀ j : Instr, j.Within i → j.isManaged = false := by
  obtain ⟨hw,he⟩ := Program.wellResolved_of_checkSource hc
  replace hE := Lower.lowered_of_program hw he hE
  have htypes : E.module.types = #[] := by simpa [Module.usesGc] using hgc
  have known : ∀ t : ValueType, t.isKnown E.module = true → t.isRef = false := fun _ => ValueType.isRef_of_isKnown htypes
  refine ⟨Array.eq_empty_iff_forall_not_mem.mpr fun g hg => ?_,fun f hf => ?_⟩
  · obtain ⟨_,_,_,ha⟩ := hE.global_init (Array.mem_toList_iff.mpr hg)
    simp [Module.array?,htypes] at ha
  obtain ⟨n,hn⟩ := Array.mem_iff_getElem?.mp hf
  have hwell := hE.func_wellTyped hw he hn
  cases hhost : f.host? with
  | some source =>
    obtain ⟨hlocals,hbody⟩ := hE.bare n f hn (by simp [hhost])
    simpa [hlocals,hbody] using fun t ht => known t (hwell.signature t (by simpa using ht))
  | none =>
    refine ⟨fun t ht => known t ?_,fun i hi j hj => ?_⟩
    · exact (mem_append.mp ht).elim (hwell.signature t) (hwell.locals hhost t)
    · obtain ⟨x,e,ht⟩ := Wasm.Func.typed_within (hwell.body hhost) hi hj
      exact Instr.not_managed htypes ht

theorem references_need_types_sample : ∃ exports p E, checkSource [] "main.vast" literalSource Program.initial =
    .ok exports p ∧ Lower.program exports p {} = .ok ((), E) ∧ E.module.usesGc = false ∧
    ∀ f ∈ E.module.funcs, ∀ i ∈ f.body, ∀ j : Instr, j.Within i → j.isManaged = false := by
  have hcheck : (compile [] "main.vast" literalSource).toOption.any (!·.module.usesGc) = true := by decide +kernel
  obtain ⟨artifact,h,hcheck⟩ := exists_of_any hcheck
  obtain ⟨p,exports,E,_,_,_,hm,hc,hE⟩ := lowered_of_compile h
  have hgc : E.module.usesGc = false := by simpa [hm] using hcheck
  exact ⟨exports,p,E,hc,hE,hgc,fun f hf => ((references_need_types hc hE hgc).2 f hf).2⟩

end FormCompiler
