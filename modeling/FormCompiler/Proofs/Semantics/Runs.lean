import FormCompiler.Proofs.Semantics.Calls
import FormCompiler.Proofs.Semantics.Stability

/-! Calls of exported functions, one after the other on one machine. No call goes wrong, each does what the program
means, and a match on types that names enough of them always finds its arm. -/

namespace FormCompiler

open Wasm (AllTyped Func Instance Instr Stop Store StoreTyped Trap Value ValueType refill resultTyped)
open Lower

variable {filler : Instr} {exports : List (String × EntityId)} {m : Wasm.Module} {globals : Array Value} {E : Emission}
  {p : Program} {name : String} {type : ValueType} {n : Nat} {i : Instance}

namespace Wasm

variable {f : Func}

/-- A function is exported under the name, and these are arguments of its types. -/
def Instance.Accepts (i : Instance) (store : Store) (name : String) (args : List Value) (f : Func) : Prop :=
  ∃ n, i.module.exported? name = some (n, f) ∧ AllTyped i.module store.heap args f.params

/-- What calls of exported functions make of a store. -/
inductive Instance.Session (i : Instance) (start : Store) : Store → Prop
  | start : Session i start start
  | call {store name args f} : Session i start store → i.Accepts store name args f →
      Session i start (leftBy (i.callExport name args store))

private theorem Module.exported?_eq_some {m : Module} (h : m.exported? name = some (n, f)) :
    m.funcs[n]? = some f ∧ f.exportName = some name := by
  simp only [Module.exported?,Option.bind_eq_bind,Option.bind_eq_some_iff] at h
  obtain ⟨index,hi,g,hg,he⟩ := h
  cases he
  obtain ⟨hlt,hname,_⟩ := Array.findIdx?_eq_some_iff_getElem.mp hi
  obtain ⟨_,rfl⟩ := Array.getElem?_eq_some_iff.mp hg
  exact ⟨hg,by simpa using hname⟩

private theorem Module.exported?_refill {m : Module} (h : m.exported? name = some (n, f)) :
    (m.refill filler).exported? name = some (n, f.refill filler) := by
  simp only [Module.exported?,Option.bind_eq_bind,Option.bind_eq_some_iff] at h ⊢
  obtain ⟨index,hi,g,hg,he⟩ := h
  cases he
  refine ⟨n,?_,f.refill filler,by rw [Module.getElem?_funcs_refill,hg]; rfl,rfl⟩
  rw [← hi]
  exact Array.findIdx?_map ..

theorem Instance.callExport_eq (h : i.module.exported? name = some (n, f)) (args : List Value) :
    i.callExport name args = i.callWithin i.depthLimit n args := by
  unfold Instance.callExport
  rw [h]
  rfl

end Wasm

namespace Semantics

variable {heap : Wasm.Heap} {id : EntityId} {store : Store} {hosts : Hosts}

/-- Values have their types whatever the code is. -/
theorem hasType_refill (v : Value) (t : Wasm.ValueType) : v.HasType (m.refill filler) heap t ↔ v.HasType m heap t := by
  cases t <;> simp only [Value.HasType,Wasm.Module.isSubtype_refill]

private theorem resultTyped_refill {v : Option Value}
    {t : Option ValueType} : resultTyped (m.refill filler) heap v t ↔ resultTyped m heap v t := by
  cases v <;> cases t <;> simp only [resultTyped,hasType_refill]

private theorem storeTyped_refill : StoreTyped (m.refill filler) globals store ↔ StoreTyped m globals store := by
  have hobject : ∀ o : Wasm.HeapObject, o.Typed (m.refill filler) store.heap ↔ o.Typed m store.heap := by
    intro o
    cases o <;> simp only [Wasm.HeapObject.Typed,hasType_refill] <;> rfl
  constructor
  · intro h
    exact ⟨fun address o ho => (hobject o).mp (h.objects address o ho),
      fun index g hg => (h.globals index g hg).imp fun v hv => ⟨hv.1,(hasType_refill v _).mp hv.2⟩,
      fun entry he => (hasType_refill _ _).mp (h.memory entry he)⟩
  · intro h
    exact ⟨fun address o ho => (hobject o).mpr (h.objects address o ho),
      fun index g hg => (h.globals index g hg).imp fun v hv => ⟨hv.1,(hasType_refill v _).mpr hv.2⟩,
      fun entry he => (hasType_refill _ _).mpr (h.memory entry he)⟩

section Runs

variable (hR : Ready p exports E filler i) (ha : HostsAgree p E i hosts) {w : World} {args : List Value} {f : Func}
include hR

/-- What is called by a name is a function of the program. -/
theorem export_of_name (hn : i.module.exported? name = some (n, f)) : ∃ id, E.funcs.lookup id = some n := by
  obtain ⟨hf,hname⟩ := Wasm.Module.exported?_eq_some hn
  rw [hR.func] at hf
  obtain ⟨g,hg,rfl⟩ := Option.map_eq_some_iff.mp hf
  exact (hR.lowered.named n g name hg hname).imp fun _ h => h.2

include ha in
/-- One call of an exported function. -/
theorem export_tied (hid : E.funcs.lookup id = some n)
    (hn : i.module.exported? name = some (n, f)) (hm : Mirrors p E w store)
    (hs : StoreTyped i.module i.globals store) (hargs : AllTyped i.module store.heap args f.params) :
    Tied (Answers p exports E i) (Gives p E) (callWithin p hosts i.rounds i.depthLimit id args w)
        (i.callExport name args store) ∧
      Wasm.Answered i.module i.globals store f.result (i.callExport name args store) := by
  have hf := (Wasm.Module.exported?_eq_some hn).1
  rw [Instance.callExport_eq hn]
  exact ⟨calls_agree hR ha _ id n _ args w store hid hf hm hs hargs,hR.invoke_sound _ n _ args store hf hs hargs⟩

omit hR in
/-- A call that runs as it is evaluated runs one way only. -/
theorem Tied.unique {i' : Instance} {x : EStateM.Result Halt World (Option Value)}
    {y y' : EStateM.Result Stop Store (Option Value)} (h : Tied (Answers p exports E i) (Gives p E) x y)
    (h' : Tied (Answers p exports E i') (Gives p E) x y') : y' = y := by
  cases x with
  | ok v w =>
    obtain ⟨_,store,rfl,rfl,hm⟩ := h.of_ok
    obtain ⟨_,store',rfl,rfl,hm'⟩ := h'.of_ok
    rw [hm.unique hm']
  | error halt w =>
    obtain ⟨stop,store,rfl,hs,hm,_⟩ := h.of_error
    obtain ⟨stop',store',rfl,hs',hm',_⟩ := h'.of_error
    cases hs.symm.trans hs'
    rw [hm.unique hm']

private theorem storeTyped_start : StoreTyped i.module i.globals { heap := chainHeap (structured p E) } := by
  rw [hR.module,hR.globals]
  exact storeTyped_refill.mpr hR.lowered.objects.storeTyped

include ha in
/-- After any calls the machine has what the program has. -/
theorem session_mirrored (h : i.Session { heap := chainHeap (structured p E) } store) :
    (∃ w, Mirrors p E w store) ∧ StoreTyped i.module i.globals store := by
  induction h with
  | start => exact ⟨⟨_,mirrors_initial p E⟩,storeTyped_start hR⟩
  | @call store name args f _ haccepts ih =>
    obtain ⟨⟨w,hm⟩,hs⟩ := ih
    obtain ⟨n,hn,hargs⟩ := haccepts
    obtain ⟨id,hid⟩ := export_of_name hR hn
    obtain ⟨htied,hanswer⟩ := export_tied hR ha hid hn hm hs hargs
    rcases htied.elim with ⟨halt,w',stop,store',_,hr,_,hm',_⟩ | ⟨v,w',v',store',_,hr,_,hm'⟩
    · rw [hr] at hanswer ⊢
      exact ⟨⟨w',hm'⟩,hanswer.1⟩
    · rw [hr] at hanswer ⊢
      exact ⟨⟨w',hm'⟩,hanswer.1⟩

end Runs

section Programs

/-- Every export of the program is one of the module, with the types the program declares. -/
theorem exported_of_mem (he : p.ExportsOk exports) (hE : Lowered p exports E)
    (hx : (name, id) ∈ exports) : ∃ n f d, E.module.exported? name = some (n, f) ∧ E.funcs.lookup id = some n ∧
      p.entities.kind id = .function d ∧ E.Signs d f := by
  obtain ⟨n,f,hn,hf,hname⟩ := hE.exported name id hx
  have hsome : (E.module.funcs.findIdx? (·.exportName == some name)).isSome = true := by
    obtain ⟨hlt,rfl⟩ := Array.getElem?_eq_some_iff.mp hf
    rw [Array.findIdx?_isSome,Array.any_eq_true]
    exact ⟨n,hlt,beq_iff_eq.mpr hname⟩
  obtain ⟨k,hk⟩ := Option.isSome_iff_exists.mp hsome
  have hlt := (Array.findIdx?_eq_some_iff_getElem.mp hk).1
  have hfound : E.module.exported? name = some (k, E.module.funcs[k]) := by
    simp [Wasm.Module.exported?,hk,Array.getElem?_eq_getElem hlt]
  obtain ⟨hg,hname'⟩ := Wasm.Module.exported?_eq_some hfound
  obtain ⟨id',hx',hid'⟩ := hE.named k _ name hg hname'
  cases List.inj_on_of_nodup_map he.names hx hx' rfl
  obtain ⟨d,f',hkind,hf',hsig⟩ := hE.consistent.entry id k hid'
  cases hg.symm.trans hf'
  exact ⟨k,_,d,hfound,hid',hkind,hsig⟩

variable {machine : Instance}

/-- Hosts do not see the code. -/
theorem hostsTyped_refill (h : machine.HostsTyped) :
    Instance.HostsTyped { machine with module := machine.module.refill filler } := by
  intro source host hhost f hf hh args store hs hargs
  simp only [Wasm.Module.refill,Array.toList_map,List.mem_map] at hf
  obtain ⟨g,hg,rfl⟩ := hf
  have hanswer := h source host hhost g hg hh args store (storeTyped_refill.mp hs)
    (hargs.imp fun v t hv => (hasType_refill v t).mp hv)
  cases hr : host args store with
  | error stop after =>
    rw [hr] at hanswer
    exact ⟨storeTyped_refill.mpr hanswer.1,hanswer.2⟩
  | ok value after =>
    rw [hr] at hanswer
    exact ⟨storeTyped_refill.mpr hanswer.1,hanswer.2.1,resultTyped_refill.mpr hanswer.2.2⟩

private theorem hostsAgree_refill (h : HostsAgree p E machine hosts) :
    HostsAgree p E { machine with module := machine.module.refill filler } hosts := by
  refine fun source => ⟨(h source).1,fun ask host hask hhost f hf hh args w store hm hs hargs => ?_⟩
  simp only [Wasm.Module.refill,Array.toList_map,List.mem_map] at hf
  obtain ⟨g,hg,rfl⟩ := hf
  exact (h source).2 ask host hask hhost g hg hh args w store hm (storeTyped_refill.mp hs)
    (hargs.imp fun v t hv => (hasType_refill v t).mp hv)

/-- One program is ready with anything else where nothing runs. -/
theorem Ready.refill (hR : Ready p exports E .unreachable machine) (hdead : filler.Dead) :
    Ready p exports E filler { machine with module := machine.module.refill filler } where
  __ := hR
  dead := hdead
  module := by rw [hR.module,Wasm.Module.refill_unreachable]
  hosts := hostsTyped_refill hR.hosts

end Programs

end Semantics

open Semantics

/-- What becomes of a source that compiles: the program it is, the code of the program, and the machine it starts as. -/
structure Built (library : List SourceFile) (file source : String) (artifact : Artifact)
    (exports : List (String × EntityId)) (p : Program) (E : Emission) (start : Instance) (first : Store) : Prop where
  checked : checkSource library file source Program.initial = .ok exports p
  lowered : Lower.program exports p {} = .ok ((), E)
  module : E.module = artifact.module
  started : Instance.ofModule artifact.module {} = .ok start first

/-- A machine that runs a program: it has the code and globals of the one that was started, rounds enough, and hosts
that keep to their types; the program is not too large to be numbered. -/
structure Carries (p : Program) (start machine : Instance) : Prop where
  entities : p.entities.size < 0x80000000
  exprs : p.exprs.size ≤ 0x80000000
  module : machine.module = start.module
  globals : machine.globals = start.globals
  rounds : p.entities.size < machine.rounds
  hosts : machine.HostsTyped

section Built

variable {library : List SourceFile} {file source : String} {artifact : Artifact} {exports' : List (String × EntityId)}
  {p' : Program} {E' : Emission} {start start' : Instance} {first first' : Store}

theorem Built.unique (h : Built library file source artifact exports p E start first)
    (k : Built library file source artifact exports' p' E' start' first') :
    exports' = exports ∧ p' = p ∧ E' = E ∧ start' = start ∧ first' = first := by
  cases h.checked.symm.trans k.checked
  cases h.lowered.symm.trans k.lowered
  cases h.started.symm.trans k.started
  exact ⟨rfl,rfl,rfl,rfl,rfl⟩

theorem exists_ready (h : compile library file source = .ok artifact) : ∃ exports p E start,
    Built library file source artifact exports p E start { heap := chainHeap (structured p E) } ∧
    start.module = artifact.module ∧ p.WellResolved ∧ p.ExportsOk exports ∧ Lowered p exports E ∧
    ∀ machine, Carries p start machine → Ready p exports E .unreachable machine := by
  obtain ⟨p,exports,E,hw,he,hE,hm,hcheck,hprogram⟩ := lowered_of_compile h
  have hstart := hE.objects.ofModule
  refine ⟨exports,p,E,_,⟨hcheck,hprogram,hm,hm ▸ hstart⟩,rfl,hw,he,hE,fun machine hc => ?_⟩
  have hmodule : machine.module = E.module.refill .unreachable := by
    rw [Wasm.Module.refill_unreachable]
    exact hc.module.trans hm.symm
  exact ⟨hw,he,hE,fun _ _ => rfl,hmodule,hc.globals,hc.entities,hc.exprs,hc.rounds,hc.hosts⟩

end Built

/-! ### A host that keeps an object -/

/-- What a host gives that always gives back the first object of a type it was given, and what it keeps then. -/
def kept (type : ValueType) (args : List Value) (memory : List (ValueType × Value)) :
    Option Value × List (ValueType × Value) :=
  match memory.lookup type with
  | some value => (some value, memory)
  | none => (args.head?, args.head?.toList.map (type,·) ++ memory)

def keeping (m : Wasm.Module) (globals : Array Value) (type : ValueType) : Instance where
  module := m
  globals := globals
  hosts _ := some fun args store =>
    .ok (kept type args store.memory).1 { store with memory := (kept type args store.memory).2 }

def keepingHosts (type : ValueType) : Hosts := fun _ => some fun args w =>
  .ok (kept type args w.memory).1 { w with memory := (kept type args w.memory).2 }

private theorem keeping_typed (h : ∀ f ∈ m.funcs.toList, f.host? ≠ none → f.params = [type] ∧ f.result = some type) :
    (keeping m globals type).HostsTyped := by
  intro source host hhost f hf hh args store hs hargs
  obtain ⟨hparams,hresult⟩ := h f hf (by simp [hh])
  cases hhost
  rw [hparams] at hargs
  obtain _ | ⟨hv,hnil⟩ := hargs
  cases hnil
  rw [hresult]
  simp only [kept]
  cases hl : store.memory.lookup type with
  | some value => exact ⟨⟨hs.objects,hs.globals,hs.memory⟩,.refl _,hs.memory _ (mem_of_lookup hl)⟩
  | none =>
    refine ⟨⟨hs.objects,hs.globals,fun entry he => ?_⟩,.refl _,hv⟩
    rcases List.mem_cons.mp he with rfl | he
    · exact hv
    · exact hs.memory entry he

theorem keeping_agrees : HostsAgree p E (keeping m globals type) (keepingHosts type) := by
  refine fun source => ⟨rfl,fun ask host hask hhost f hf hh args w store hm hs hargs => ?_⟩
  cases hask
  cases hhost
  exact ⟨by rw [hm.memory],hm.log,by rw [hm.memory],hm.size,hm.cells,hm.ancestors⟩

/-- The host is given one object, and gives it back when another one is matched. -/
def dispatchSource : String :=
  "(obj A (: x i32))(obj B (extends A))(declare \"env\" (fn first (parameters (: a A)) (return_type A)))" ++
    "(pub (fn make (parameters) (first (B (object (: x 2)))) (A (object (: x 1)))))" ++
    "(pub (fn pick (parameters (: a A)) (match (first a) (=> B 1) (=> A 2))))" ++
    "(pub (fn rate (parameters (: a A)) (return_type i32) (match (x (first a)) bound (=> 1 10) (=> 2 bound) (else 0))))"

/-- A machine for the program above, after an object was made and before it is matched. -/
structure Sample where
  artifact : Artifact
  exports : List (String × EntityId)
  p : Program
  E : Emission
  start : Instance
  first : Store
  type : ValueType
  object : Value
  made : Store
  pick : Func
  last : Store
  compiled : compile [] "main.vast" dispatchSource = .ok artifact
  built : Built [] "main.vast" dispatchSource artifact exports p E start first
  exported : ∃ id, ("pick", id) ∈ exports
  carries : Carries p start (keeping artifact.module start.globals type)
  session : (keeping artifact.module start.globals type).Session first made
  accepts : (keeping artifact.module start.globals type).Accepts made "pick" [object] pick
  answers : (keeping artifact.module start.globals type).callExport "pick" [object] made = .ok (some (.i32 1)) last

private def dispatches : Bool :=
  (compile [] "main.vast" dispatchSource).toOption.any fun artifact => okAnd (fun exports p =>
    (exports.lookup "pick").isSome && p.entities.size < 0x80000000 && p.exprs.size ≤ 0x80000000 && okAnd (fun start first =>
      match artifact.module.exported? "make", artifact.module.exported? "pick" with
      | some (_, make), some (_, pick) =>
        match pick.params with
        | [.ref type] =>
          let machine := keeping artifact.module start.globals (.ref type)
          artifact.module.funcs.toList.all (fun f =>
            f.host? ≠ none → f.params = [.ref type] ∧ f.result = some (.ref type)) && make.params = [] &&
            okAnd (fun value made =>
              match value with
              | some (.ref (some address)) => made.heap[address]?.any (artifact.module.isSubtype ·.type type) &&
                okAnd (fun answer _ => answer = some (.i32 1)) (machine.callExport "pick" [.ref (some address)] made)
              | _ => false) (machine.callExport "make" [] first)
        | _ => false
      | _, _ => false) (Instance.ofModule artifact.module {})) (checkSource [] "main.vast" dispatchSource Program.initial)

theorem nonempty_sample : Nonempty Sample := by
  have h : dispatches = true := by decide +kernel
  obtain ⟨artifact,ha,h⟩ := exists_of_any h
  obtain ⟨exports,p,E,start,hB,hmodule,_⟩ := exists_ready ha
  obtain ⟨exports',p',hp,h⟩ := okAnd_iff.mp h
  cases hB.checked.symm.trans hp
  simp only [Bool.and_eq_true,decide_eq_true_eq] at h
  obtain ⟨⟨⟨hexport,hentities⟩,hexprs⟩,h⟩ := h
  obtain ⟨id,hid⟩ := Option.isSome_iff_exists.mp hexport
  obtain ⟨start',first,hstart,h⟩ := okAnd_iff.mp h
  cases hB.started.symm.trans hstart
  split at h
  · rename_i _ make _ pick hmake hpick
    split at h
    · rename_i type hparams
      simp only [Bool.and_eq_true,decide_eq_true_eq,List.all_eq_true] at h
      obtain ⟨⟨htypes,hnone⟩,h⟩ := h
      obtain ⟨value,made,hmade,h⟩ := okAnd_iff.mp h
      split at h
      · rename_i address
        simp only [Bool.and_eq_true,Option.any_eq_true] at h
        obtain ⟨⟨object,hobject,hsub⟩,h⟩ := h
        obtain ⟨answer,last,hlast,h⟩ := okAnd_iff.mp h
        cases of_decide_eq_true h
        have hargs : AllTyped artifact.module made.heap [.ref (some address)] pick.params := by
          rw [hparams]
          exact .cons (.inr ⟨address,object,rfl,hobject,hsub⟩) .nil
        have hmakes : (keeping artifact.module start.globals (.ref type)).Accepts { heap := chainHeap (structured p E) }
            "make" [] make := ⟨_,hmake,by rw [hnone]; exact .nil⟩
        have hsession := Instance.Session.call .start hmakes
        rw [hmade] at hsession
        have hrounds := Nat.lt_trans hentities (by decide : 0x80000000 < 0x4000000000000000)
        exact ⟨⟨artifact,exports,p,E,start,_,.ref type,_,made,pick,last,ha,hB,⟨id,mem_of_lookup hid⟩,
          ⟨hentities,hexprs,hmodule.symm,rfl,hrounds,keeping_typed htypes⟩,hsession,
          ⟨_,hpick,hargs⟩,hlast⟩⟩
      · cases h
    · cases h
  · cases h

/-- Whatever compiles starts, and calls of exported functions do not go wrong, whatever was called before: there is no
fault of the code and no failed cast, and a value is of the type of the result. -/
theorem compiled_calls_safe {library : List SourceFile} {file source : String} {artifact : Artifact}
    (h : compile library file source = .ok artifact) :
    ∃ exports p E start first, Built library file source artifact exports p E start first ∧
      (∀ name id, (name, id) ∈ exports → ∃ n f d, artifact.module.exported? name = some (n, f) ∧
        p.entities.kind id = .function d ∧ E.Signs d f) ∧
      ∀ machine, Carries p start machine → HostsMirrored p E machine →
        (∀ source host, machine.hosts source = some host →
          ∀ args store type after, host args store ≠ .error (.trap (.castFailure type)) after) →
        ∀ store, machine.Session first store → ∀ name args f, machine.Accepts store name args f →
          match machine.callExport name args store with
          | .ok value after => resultTyped artifact.module after.heap value f.result
          | .error stop _ => (∀ fault, stop ≠ .trap (.malformed fault)) ∧ ∀ type, stop ≠ .trap (.castFailure type) := by
  obtain ⟨exports,p,E,start,hB,hmodule,_,he,hE,hready⟩ := exists_ready h
  refine ⟨exports,p,E,start,_,hB,fun name id hx => ?_,?_⟩
  · obtain ⟨n,f,d,hn,_,hk,hsig⟩ := exported_of_mem he hE hx
    exact ⟨n,f,d,hB.module ▸ hn,hk,hsig⟩
  intro machine hcarries hmirrored hcasts store hsession name args f ha
  obtain ⟨hosts,hagree⟩ := hmirrored.exists_hosts
  have hR := hready machine hcarries
  obtain ⟨⟨w,hw'⟩,hs⟩ := session_mirrored hR hagree hsession
  obtain ⟨n,hn,hargs⟩ := ha
  obtain ⟨id,hid⟩ := export_of_name hR hn
  obtain ⟨htied,hanswer⟩ := export_tied hR hagree hid hn hw' hs hargs
  rcases htied.elim with ⟨halt,_,stop,after,_,hr,hstop,_,harises⟩ | ⟨_,_,_,after,_,hr,_⟩
  · rw [hr] at hanswer ⊢
    refine ⟨hanswer.2.2,fun type hcast => ?_⟩
    subst hcast
    cases harises with
    | exhausted | unfinished | noCase _ => cases hstop
    | reported hhost hreport hstop' =>
      cases hstop.symm.trans hstop'
      exact hcasts _ _ hhost _ _ type _ hreport
    | operation _ hcast _ =>
      cases hstop
      exact hcast type rfl
  · rw [hr] at hanswer ⊢
    exact hcarries.module.trans hmodule ▸ hanswer.2.2

theorem compiled_calls_safe_sample : ∃ S : Sample,
    resultTyped S.artifact.module S.last.heap (some (.i32 1)) S.pick.result := by
  obtain ⟨S⟩ := nonempty_sample
  obtain ⟨_,_,_,_,_,hB,_,hsafe⟩ := compiled_calls_safe S.compiled
  obtain ⟨rfl,rfl,rfl,rfl,rfl⟩ := S.built.unique hB
  have hcall := hsafe _ S.carries keeping_agrees.mirrored (fun _ _ hhost _ _ _ _ hfail => by cases hhost; cases hfail)
    S.made S.session "pick" [S.object] S.pick S.accepts
  rw [S.answers] at hcall
  exact ⟨S,hcall⟩

/-- Whatever compiles does what it means, with any hosts that answer evaluation as they answer the machine. A call of an
exported function gives what evaluation gives, if it gives a value or traps, and asks the host the same, unless calls
nest too deep for the machine; what the machine gives, evaluation gives. Objects are the same field by field, before and
after. -/
theorem compiled_calls_mean {library : List SourceFile} {file source : String} {artifact : Artifact}
    (h : compile library file source = .ok artifact) :
    ∃ exports p E start first, Built library file source artifact exports p E start first ∧
      Mirrors p E (World.initial p E) first ∧
      ∀ machine, Carries p start machine → ∀ hosts, HostsAgree p E machine hosts →
        ∀ store, machine.Session first store → (∃ world, Mirrors p E world store) ∧
        ∀ world, Mirrors p E world store → ∀ name id, (name, id) ∈ exports →
        ∃ n f d, artifact.module.exported? name = some (n, f) ∧ p.entities.kind id = .function d ∧ E.Signs d f ∧
          ∀ args, AllTyped artifact.module store.heap args f.params →
          (∀ rounds levels value world', rounds ≤ machine.rounds →
            callWithin p hosts rounds levels id args world = .ok value world' → ∃ after,
              machine.callExport name args store = .ok value after ∧ Mirrors p E world' after ∨
              machine.callExport name args store = .error (.trap .callStackExhausted) after) ∧
          (∀ rounds levels cause world', rounds ≤ machine.rounds →
            callWithin p hosts rounds levels id args world = .error (.trap cause) world' → ∃ after,
              machine.callExport name args store = .error (.trap cause) after ∧ Mirrors p E world' after ∨
              machine.callExport name args store = .error (.trap .callStackExhausted) after) ∧
          ∀ value after, machine.callExport name args store = .ok value after → ∃ world',
            callWithin p hosts machine.rounds machine.depthLimit id args world = .ok value world' ∧
            Mirrors p E world' after := by
  obtain ⟨exports,p,E,start,hB,hmodule,_,he,hE,hready⟩ := exists_ready h
  refine ⟨exports,p,E,start,_,hB,mirrors_initial p E,fun machine hcarries hosts hagree store hsession => ?_⟩
  have hR := hready machine hcarries
  obtain ⟨hworld,hs⟩ := session_mirrored hR hagree hsession
  refine ⟨hworld,fun world hmirrors name id hx => ?_⟩
  obtain ⟨n,f,d,hn,hid,hk,hsig⟩ := exported_of_mem he hE hx
  rw [hB.module] at hn
  refine ⟨n,f,d,hn,hk,hsig,fun args hargs => ?_⟩
  rw [← hmodule,← hcarries.module] at hn hargs
  have htied := (export_tied hR hagree hid hn hmirrors hs hargs).1
  have hexhausted : ∀ world', callWithin p hosts machine.rounds machine.depthLimit id args world =
      .error .exhausted world' → ∃ after,
        machine.callExport name args store = .error (.trap .callStackExhausted) after := by
    intro world' hshort
    rw [hshort] at htied
    obtain ⟨_,after,hr,hstop,_⟩ := htied.of_error
    cases hstop
    exact ⟨after,hr⟩
  refine ⟨fun rounds levels value world' hle hends => ?_,fun rounds levels cause world' hle hends => ?_,
    fun value after hr => ?_⟩
  · rcases callWithin_of_ends hends (by simp) (by simp) hle machine.depthLimit with hsame | ⟨_,hshort⟩
    · rw [hsame] at htied
      obtain ⟨_,after,hr,rfl,hafter⟩ := htied.of_ok
      exact ⟨after,.inl ⟨hr,hafter⟩⟩
    · exact (hexhausted _ hshort).imp fun _ => .inr
  · rcases callWithin_of_ends hends (by simp) (by simp) hle machine.depthLimit with hsame | ⟨_,hshort⟩
    · rw [hsame] at htied
      obtain ⟨_,after,hr,hstop,hafter,_⟩ := htied.of_error
      cases hstop
      exact ⟨after,.inl ⟨hr,hafter⟩⟩
    · exact (hexhausted _ hshort).imp fun _ => .inr
  · rcases htied.elim with ⟨_,_,_,_,_,he,_⟩ | ⟨v,world',_,_,hv,he,rfl,hafter⟩
    · cases hr.symm.trans he
    · cases hr.symm.trans he
      exact ⟨world',hv,hafter⟩

theorem compiled_calls_mean_sample : ∃ (S : Sample) (world world' : World) (id : EntityId), Mirrors S.p S.E world S.made ∧
    ("pick", id) ∈ S.exports ∧ callWithin S.p (keepingHosts S.type) 0x4000000000000000 200 id [S.object] world =
      .ok (some (.i32 1)) world' ∧ Mirrors S.p S.E world' S.last := by
  obtain ⟨S⟩ := nonempty_sample
  obtain ⟨_,_,_,_,_,hB,_,hmean⟩ := compiled_calls_mean S.compiled
  obtain ⟨rfl,rfl,rfl,rfl,rfl⟩ := S.built.unique hB
  obtain ⟨⟨world,hworld⟩,hexport⟩ := hmean _ S.carries _ keeping_agrees S.made S.session
  obtain ⟨id,hid⟩ := S.exported
  obtain ⟨n,f,d,hn,_,_,hargs⟩ := hexport world hworld "pick" id hid
  obtain ⟨_,hpick,htyped⟩ := S.accepts
  cases hn.symm.trans hpick
  obtain ⟨world',hrun,hafter⟩ := (hargs [S.object] htyped).2.2 _ _ S.answers
  exact ⟨S,world,world',id,hworld,hid,hrun,hafter⟩

/-- Matches on types that compile without an arm for all other cases need none. An object of a type that the operand
can have makes one of their arms fire; what the code has in place of such an arm is never run, so calls of exported
functions do the same with anything else there. A call that traps as unreachable comes from a match on values that has
no arm for all other cases, or from the host. -/
theorem type_matches_suffice {library : List SourceFile} {file source : String} {artifact : Artifact}
    (h : compile library file source = .ok artifact) :
    ∃ exports p E start first, Built library file source artifact exports p E start first ∧
      (∀ id m τ, p.Typed id τ → (p.exprs.get id).shape = .select m → m.isTypeGuard = true → m.default = none →
        ∃ C, p.Typed m.operand (.object C) ∧ ∀ T d, p.entities.kind T = .object d → d.stage = .done →
          p.entities.Extends T C → ∃ arm ∈ m.arms, ∃ t, arm.patternType = some (.object t) ∧ p.entities.Extends T t) ∧
      ∀ machine, Carries p start machine → HostsMirrored p E machine →
        ∀ store, machine.Session first store → ∀ name args f, machine.Accepts store name args f →
          (∀ filler : Instr, filler.Dead → Instance.callExport { machine with module := machine.module.refill filler }
            name args store = machine.callExport name args store) ∧
          ∀ after, machine.callExport name args store = .error (.trap .unreachable) after →
            PartialMatch p exports ∨ ∃ source host args store after, machine.hosts source = some host ∧
              host args store = .error (.trap .unreachable) after := by
  obtain ⟨exports,p,E,start,hB,_,hw,_,_,hready⟩ := exists_ready h
  refine ⟨exports,p,E,start,_,hB,fun id m τ hτ hshape hguard hnone => ?_,?_⟩
  · have ht := (hw.inv.nodes id τ hτ).1
    rw [hshape] at ht
    cases ht with
    | select hmatch =>
      obtain ⟨C,rfl⟩ := hmatch.guard hguard
      exact ⟨C,hmatch.operand,fun T d hk hd hext => covered_arm hw hshape hmatch hguard hnone hk hd hext⟩
  intro machine hcarries hmirrored store hsession name args f ha
  obtain ⟨hosts,hagree⟩ := hmirrored.exists_hosts
  have hR := hready machine hcarries
  obtain ⟨⟨w,hmirrors⟩,hs⟩ := session_mirrored hR hagree hsession
  obtain ⟨n,hn,hargs⟩ := ha
  obtain ⟨id,hid⟩ := export_of_name hR hn
  have htied := (export_tied hR hagree hid hn hmirrors hs hargs).1
  refine ⟨fun filler hdead => ?_,fun after hr => ?_⟩
  · have htied' := (export_tied (hR.refill hdead) (hostsAgree_refill hagree) hid (Wasm.Module.exported?_refill hn) hmirrors
      (storeTyped_refill.mpr hs) (hargs.imp fun v t hv => (hasType_refill v t).mpr hv)).1
    exact htied.unique htied'
  · rcases htied.elim with ⟨halt,_,_,_,_,he,hstop,_,harises⟩ | ⟨_,_,_,_,_,he,_⟩
    · cases hr.symm.trans he
      cases harises with
      | exhausted | unfinished => cases hstop
      | reported hhost hreport hstop' =>
        cases hstop.symm.trans hstop'
        exact .inr ⟨_,_,_,_,_,hhost,hreport⟩
      | noCase hpartial => exact .inl hpartial
      | operation hne _ _ =>
        cases hstop
        exact absurd rfl hne
    · cases hr.symm.trans he

theorem type_matches_suffice_sample : ∃ S : Sample,
    (keeping (S.artifact.module.refill (.seq [.unreachable])) S.start.globals S.type).callExport "pick" [S.object] S.made =
      .ok (some (.i32 1)) S.last := by
  obtain ⟨S⟩ := nonempty_sample
  obtain ⟨_,_,_,_,_,hB,_,hsuffice⟩ := type_matches_suffice S.compiled
  obtain ⟨rfl,rfl,rfl,rfl,rfl⟩ := S.built.unique hB
  have hsame := (hsuffice _ S.carries keeping_agrees.mirrored S.made S.session "pick" [S.object] S.pick
    S.accepts).1 (.seq [.unreachable]) fun _ _ => rfl
  exact ⟨S,hsame.trans S.answers⟩

end FormCompiler
