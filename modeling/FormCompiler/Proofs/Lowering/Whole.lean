import FormCompiler.Proofs.Lowering.Extraction
import FormCompiler.Proofs.Lowering.Inheritance
import FormCompiler.Proofs.Resolution.Scanning

/-! The finished module: which functions it has, and what each of them holds. -/

namespace FormCompiler

open List

open Wasm (Func Instr Module ValueType)

variable {exports : List (String × EntityId)} {p : Program}

namespace Program

/-- The functions that the exported ones call, directly or through others. -/
inductive Reached (p : Program) (exports : List (String × EntityId)) : EntityId → Prop
  | exported {name f} : (name, f) ∈ exports → Reached p exports f
  | called {f g d node} : Reached p exports f → p.entities.kind f = .function d → d.Covers node →
      p.Calls node g → Reached p exports g

/-- Whatever is reached can be compiled. -/
theorem Reached.ripe (hw : p.WellResolved) (he : p.ExportsOk exports) {f : EntityId}
    (h : p.Reached exports f) : ∃ d, p.Ripe f d := by
  induction h with
  | exported hm =>
    obtain ⟨d,hk,hplain,hop⟩ := he.functions _ hm
    exact ⟨d,hw.ripe hk hplain hop⟩
  | @called f g d node _ hk hc hcall ih =>
    obtain ⟨e,hr⟩ := ih
    cases hk.symm.trans hr.kind
    obtain ⟨τ,hτ⟩ := hw.inv.typed_of_covers hk hr.body hc
    obtain ⟨n,args,typeArgs,d',hs,hk',hop⟩ := hcall
    have ht := (hw.inv.nodes node τ hτ).1
    rw [hs] at ht
    cases ht with
    | call hct =>
      cases hct with
      | function hk'' hplain =>
        cases hk'.symm.trans hk''
        exact ⟨d',hw.ripe hk' hplain hop⟩

end Program

namespace Lower

variable {E : Emission} {queue : List EntityId}

/-- What the entry of a function with a body holds. -/
structure Compiled (p : Program) (E : Emission) (d : FunctionDef) (root : ExprId) (f : Func) (L : Layout)
    (code : Instr) : Prop where
  slots : L.slots = f.params ++ f.locals
  known : ∀ t ∈ L.slots, t.isKnown E.module = true
  params : ∀ (k : Nat) v, d.paramVars[k]? = some v → L.vars.lookup v = some k
  typed : ∀ v n, L.vars.lookup v = some n → ∃ τ stored, p.VarOf v τ ∧ E.stored? τ = some stored ∧
    L.slots[n]? = some stored
  unshared : ∀ v w n, L.vars.lookup v = some n → L.vars.lookup w = some n → v = w
  made : Code p E L root code
  body : f.body = [discarded p (d.returnType.any (·.hasValue)) root code]

def Made (p : Program) (E : Emission) (body : List Instr) : Prop :=
  body = [] ∨ (∃ ids exit top, body = extendsBody ids exit top) ∨ (∃ type literals, body = caseTests type 1 literals) ∨
    ∃ L keep root code, Code p E L root code ∧ body = [discarded p keep root code]

/-- Functions that wait get their bodies one after another, each the first in the queue when its turn comes. -/
inductive Defining (p : Program) : List EntityId → Emission → Emission → Prop
  | nil (s) : Defining p [] s s
  | cons {id queue order s t u v} : s.queue = id :: queue → defineFunction id p { s with queue } = .ok (v, t) →
      Defining p order t u → Defining p (id :: order) s u

structure Lowered (p : Program) (exports : List (String × EntityId)) (E : Emission) : Prop where
  objects : Objects p E
  consistent : E.Consistent p
  reached : ∀ id n, E.funcs.lookup id = some n → p.Reached exports id
  exported : ∀ name id, (name, id) ∈ exports → ∃ n f, E.funcs.lookup id = some n ∧
    E.module.funcs[n]? = some f ∧ f.exportName = some name
  named : ∀ (n : Nat) f name, E.module.funcs[n]? = some f → f.exportName = some name →
    ∃ id, (name, id) ∈ exports ∧ E.funcs.lookup id = some n
  compiled : ∀ id n d first root f, E.funcs.lookup id = some n → p.entities.kind id = .function d →
    d.body = .expr first root → E.module.funcs[n]? = some f → ∃ L code, Compiled p E d root f L code
  bare : ∀ (n : Nat) f, E.module.funcs[n]? = some f → f.host? ≠ none → f.locals = [] ∧ f.body = []
  filled : ∀ (n : Nat) f, E.module.funcs[n]? = some f → Made p E f.body
  counted : ∃ ledger, E.Census p ledger ∧ (ledger.map (·.1)).Nodup ∧ ∀ x, x ∈ ledger.map (·.1) ↔ p.ValueMatch x ∧
    ∃ g n d, E.funcs.lookup g = some n ∧ p.entities.kind g = .function d ∧ d.Covers x
  defined : ∃ s order, Defining p order s E ∧ order.Nodup ∧ (∀ f ∈ s.module.funcs, f.locals = [] ∧ f.body = []) ∧
    (∀ g ∈ order, ∃ n, E.funcs.lookup g = some n) ∧ ∀ g n d first root, E.funcs.lookup g = some n →
      p.entities.kind g = .function d → d.body = .expr first root → g ∈ order

open Emission

variable {s t : Emission} {id : EntityId} {named : List (String × EntityId)} {done : List EntityId} {n : Nat}
  {d : FunctionDef} {v : Unit}

/-! ### One function -/

/-- Changes to the entry of a function of the program that leave its signature alone. -/
theorem later_modify (hn : s.funcs.lookup id = some n) (change : Func → Func)
    (hc : ∀ f, (change f).params = f.params ∧ (change f).result = f.result ∧ (change f).host? = f.host?) :
    s.Later { s with module := { s.module with funcs := s.module.funcs.modify n change } } := by
  refine { Later.refl s with fresh := fun _ _ h => .inl h, entries := fun m f hf => ?_, helpers := fun m f hf hno => ?_ }
  · by_cases hm : n = m
    · exact ⟨change f,by simp [Array.getElem?_modify,hm,hf],hc f⟩
    · exact ⟨f,by simp [Array.getElem?_modify,hm,hf],rfl,rfl,rfl⟩
  · have hm : n ≠ m := fun hm => hno id (hm ▸ hn)
    simp [Array.getElem?_modify,hm,hf]

private theorem consistent_modify (hn : s.funcs.lookup id = some n) (change : Func → Func)
    (hc : ∀ f, (change f).params = f.params ∧ (change f).result = f.result ∧ (change f).host? = f.host?)
    (hs : s.Consistent p) :
    Consistent p { s with module := { s.module with funcs := s.module.funcs.modify n change } } := by
  have hl := later_modify hn change hc
  refine ⟨hs.structs,fun i d hd => hl.isKnown (hs.arrays i d hd),fun id' m hm => ?_,hs.unshared,hs.queue,hs.known,
    fun m hm => ?_⟩
  · obtain ⟨d,f,hk,hf,hsig⟩ := hs.entry id' m hm
    obtain ⟨g,hg,h1,h2,h3⟩ := hl.entries m f hf
    exact ⟨d,g,hk,hg,(hsig.later hl).congr h1 h2 h3⟩
  · obtain ⟨hno,ids,exit,top,hi,hne,hf⟩ := hs.tester m hm
    exact ⟨hno,ids,exit,top,hi,hne,hl.helpers m _ hf hno⟩

private theorem lookup_zipIdx {vars : List EntityId} {v : EntityId} {start : Nat}
    (h : (vars.zipIdx start).lookup v = some n) : start ≤ n ∧ vars[n - start]? = some v := by
  induction vars generalizing start with
  | nil => simp at h
  | cons w vars ih =>
    rw [zipIdx_cons,lookup_cons] at h
    split at h
    · rename_i he
      cases h
      simp [beq_iff_eq.mp he]
    · obtain ⟨h1,h2⟩ := ih h
      refine ⟨by omega,?_⟩
      rw [show n - start = n - (start + 1) + 1 by omega]
      exact h2

private theorem lookup_zipIdx_of_nodup {vars : List EntityId} (hn : vars.Nodup) {v : EntityId} {k : Nat} (start : Nat)
    (h : vars[k]? = some v) : (vars.zipIdx start).lookup v = some (start + k) := by
  induction vars generalizing start k with
  | nil => simp at h
  | cons w vars ih =>
    obtain ⟨hw,hn'⟩ := nodup_cons.mp hn
    rw [zipIdx_cons,lookup_cons]
    cases k with
    | zero =>
      cases h
      simp
    | succ k =>
      have hv : vars[k]? = some v := h
      have hne : v ≠ w := fun he => hw (he ▸ mem_of_getElem? hv)
      rw [beq_eq_false_iff_ne.mpr hne]
      simp only [ih hn' (start + 1) hv,Option.some.injEq]
      omega

/-- The storage of a function before any of its code is made: its parameters. -/
theorem storage_params (hI : p.Inv) {f : Func} (hk : p.entities.kind id = .function d)
    (hsigned : d.signature = .done) (hb : d.hasBody = true) (hs : s.Consistent p) (hsig : s.Signs d f) :
    Storage p f.params { s with frame := { params := d.paramVars.length, vars := d.paramVars.zipIdx } } := by
  have hvars := ((hI.functionOk hk).signed hsigned).vars hb
  have hl : s.Later { s with frame := { params := d.paramVars.length, vars := d.paramVars.zipIdx } } := .setFrame s _
  refine ⟨hvars.length_eq.trans hsig.params.length_eq,fun type ht => ?_,fun v n hv => ?_,fun v w n hv hw => ?_⟩
  · rw [append_nil] at ht
    obtain ⟨k,hk⟩ := mem_iff_getElem?.mp ht
    obtain ⟨hlt,rfl⟩ := List.getElem?_eq_some_iff.mp hk
    have hst := (List.forall₂_iff_get.mp hsig.params).2 k (by rw [hsig.params.length_eq]; exact hlt) hlt
    exact hl.isKnown (hs.stored?_known hst)
  · obtain ⟨_,hn⟩ := lookup_zipIdx hv
    obtain ⟨hlt,rfl⟩ := List.getElem?_eq_some_iff.mp hn
    have hlt' : n < d.paramTypes.length := hvars.length_eq ▸ hlt
    have hlt'' : n < f.params.length := hsig.params.length_eq ▸ hlt'
    refine ⟨d.paramTypes[n],f.params[n],(List.forall₂_iff_get.mp hvars).2 n hlt hlt',
      hl.stored? ((forall₂_iff_get.mp hsig.params).2 n hlt' hlt''),?_⟩
    simp
  · have h1 := (lookup_zipIdx hv).2
    rw [(lookup_zipIdx hw).2] at h1
    exact (Option.some.inj h1).symm

private theorem functionIndex_known (hn : s.funcs.lookup id = some n) : functionIndex id p s = .ok (n, s) :=
  bind_ok.mpr ⟨s,s,get_ok.mpr ⟨rfl,rfl⟩,by simp [hn]⟩

def start (s : Emission) (d : FunctionDef) : Emission :=
  { s with frame := { params := d.paramVars.length, vars := d.paramVars.zipIdx } }

private theorem grows_start : s.Grows p (start s d) := .of_later (.setFrame s _) (fun _ _ _ h => .inl h) rfl rfl rfl rfl

/-- Without a signature there are no parameters. -/
private theorem storage_start (hI : p.Inv) {f : Func} (hk : p.entities.kind id = .function d) (hb : d.hasBody = true)
    (hs : s.Consistent p) (hsig : s.Signs d f) :
    ∃ params, Storage p params (start s d) ∧ (d.signature = .done → params = f.params) := by
  by_cases hsigned : d.signature = .done
  · exact ⟨f.params,storage_params hI hk hsigned hb hs hsig,fun _ => rfl⟩
  · have hvars := ((hI.functionOk hk).unsigned hsigned).2.1
    exact ⟨[],⟨by simp [start,hvars],by simp [start],by simp [start,hvars],by simp [start,hvars]⟩,
      fun h => absurd h hsigned⟩

/-- Giving a function its body: its code is made, then it is filled in. -/
theorem defineFunction_cases (hI : p.Inv) (hs : s.Consistent p) (hn : s.funcs.lookup id = some n)
    (h : defineFunction id p s = .ok (v, t)) : ∃ d f, p.entities.kind id = .function d ∧
      s.module.funcs[n]? = some f ∧ s.Signs d f ∧ (s = t ∧ (∀ first root, d.body ≠ .expr first root) ∨
        ∃ first root code params u, d.body = .expr first root ∧ Storage p params (start s d) ∧
          (d.signature = .done → params = f.params) ∧
          (start s d).Step p (.span p first.index (root.index + 1) []) u ∧
          (∀ E L, u.Later E → u.frame.Within L → Code p E L root code) ∧
          t = { u with module :=
            u.module.defineFunc n u.frame.locals [discarded p (d.returnType.any (·.hasValue)) root code] }) := by
  obtain ⟨d,f,hk,hf,hsig⟩ := hs.entry id n hn
  have h2 := read_bind_ok.mp h
  simp only [EntityTable.function?_eq_some.mpr hk] at h2
  refine ⟨d,f,hk,hf,hsig,?_⟩
  cases hb : d.body with
  | host | intrinsic =>
    simp only [hb] at h2
    exact .inl ⟨(pure_ok.mp h2).2,by simp⟩
  | expr first root =>
    simp only [hb] at h2
    obtain ⟨index,_,h3,h4⟩ := bind_ok.mp h2
    rw [functionIndex_known hn] at h3
    cases h3
    obtain ⟨code,u,h7,h8⟩ := bind_ok.mp (modify_bind_ok.mp h4)
    have h12 := discardUnless_bind_ok.mp (get_bind_ok.mp h8)
    obtain ⟨_,rfl⟩ := modifyModule_ok.mp h12
    obtain ⟨params,hst,hparams⟩ := storage_start hI hk (by simp [FunctionDef.hasBody,hb]) hs hsig
    have hun : ∀ w, (Region.span p first.index (root.index + 1) []).vars w →
        (start s d).frame.vars.lookup w = none := by
      rintro w (⟨node,_,hw⟩ | hw)
      · refine Option.eq_none_iff_forall_ne_some.mpr fun k hk' => ?_
        exact hI.vars.param_intro id d hk w (mem_of_getElem? (lookup_zipIdx hk').2) node hw
      · cases hw
    obtain ⟨st,hfact⟩ := exprWithin_makes hI _ ((hI.functionOk hk).body first root hb).tiles h7 (.refl _)
      ⟨hun,grows_start.consistent hs,params,hst⟩
    exact .inr ⟨first,root,code,params,u,rfl,hst,hparams,st,hfact,rfl⟩

structure Defines (p : Program) (s t : Emission) (id : EntityId) (d : FunctionDef) (n : Nat) : Prop where
  later : s.Later t
  consistent : t.Consistent p
  waiting : ∀ i ∈ s.queue, i ∈ t.queue
  joined : ∀ i ∈ t.queue, i ∈ s.queue ∨ s.funcs.lookup i = none
  added : ∀ i m, t.funcs.lookup i = some m → s.funcs.lookup i = some m ∨ i ∈ t.queue ∨
    ∃ e module name, p.entities.kind i = .function e ∧ e.body = .host module name
  kept : ∀ (m : Nat) f, m ≠ n → s.module.funcs[m]? = some f → t.module.funcs[m]? = some f
  calls : ∀ g m, t.funcs.lookup g = some m → s.funcs.lookup g = some m ∨ ∃ node, d.Covers node ∧ p.Calls node g
  bare : ∀ (m : Nat) f, t.module.funcs[m]? = some f → s.module.funcs[m]? = some f ∨
    (f.host? = none ∨ f.locals = [] ∧ f.body = []) ∧ ∀ E, t.Later E → Made p E f.body
  census : p.Ripe id d → ∀ ledger, s.Census p ledger → ∃ new, t.Census p (ledger ++ new) ∧ (new.map (·.1)).Nodup ∧
    ∀ x, x ∈ new.map (·.1) ↔ d.Covers x ∧ p.ValueMatch x
  exportName : ∀ f, s.module.funcs[n]? = some f → ∃ g, t.module.funcs[n]? = some g ∧ g.exportName = f.exportName
  named : ∀ (m : Nat) g, t.module.funcs[m]? = some g → g.exportName = none ∨
    ∃ f, s.module.funcs[m]? = some f ∧ g.exportName = f.exportName
  compiled : p.Ripe id d → ∀ first root, d.body = .expr first root → ∃ f L code, t.module.funcs[n]? = some f ∧
    ∀ E, t.Later E → Compiled p E d root f L code

private theorem Defines.refl (hs : s.Consistent p) (hb : ∀ first root, d.body ≠ .expr first root) :
    Defines p s s id d n :=
  ⟨.refl s,hs,fun _ h => h,fun _ h => .inl h,fun _ _ h => .inl h,fun _ _ _ h => h,fun _ _ h => .inl h,
    fun _ _ h => .inl h,fun _ ledger hc => ⟨[],by simpa using hc,by simp,by simp [FunctionDef.Covers,hb]⟩,
    fun f hf => ⟨f,hf,rfl⟩,fun _ f hf => .inr ⟨f,hf,rfl⟩,fun _ first root h => absurd h (hb first root)⟩

private theorem defineFunction_ok (hI : p.Inv) (hk : p.entities.kind id = .function d) (hs : s.Consistent p)
    (hn : s.funcs.lookup id = some n) (h : defineFunction id p s = .ok (v, t)) : Defines p s t id d n := by
  obtain ⟨d',f,hk',hf,hsig,⟨rfl,hb⟩ | ⟨first,root,code,params,u,hb,hst,hparams,st,hfact,rfl⟩⟩ :=
    defineFunction_cases hI hs hn h
  · cases hk.symm.trans hk'
    exact .refl hs hb
  cases hk.symm.trans hk'
  have hcover : ∀ x : ExprId, d.Covers x ↔ first.index ≤ x.index ∧ x.index < root.index + 1 := by
    intro x
    rw [Nat.lt_add_one_iff]
    simp [FunctionDef.Covers,hb]
  have hgu : s.Grows p u := grows_start.trans st.grows
  have hnu := hgu.funcs id n hn
  have hl := later_modify hnu (fun g => { g with locals := u.frame.locals, body :=
    [discarded p (d.returnType.any (·.hasValue)) root code] }) fun _ => ⟨rfl,rfl,rfl⟩
  have hstu := st.storage params hst
  -- the layout of the finished function is what the frame is now
  have hcode : ∀ E, Later _ E → Code p E ⟨u.frame.vars,params ++ u.frame.locals⟩ root code := fun E hE =>
    hfact E _ (hl.trans hE) ⟨by simp [hstu.count],fun _ _ h => h,fun _ _ h => .inl h⟩
  have hfilled : (u.module.defineFunc n u.frame.locals
      [discarded p (d.returnType.any (·.hasValue)) root code]).funcs[n]? = some { f with
        locals := u.frame.locals, body := [discarded p (d.returnType.any (·.hasValue)) root code] } := by
    simp [Module.defineFunc,Array.getElem?_modify,hgu.kept n f hf]
  have hothers : ∀ {m : Nat}, n ≠ m → (u.module.defineFunc n u.frame.locals
      [discarded p (d.returnType.any (·.hasValue)) root code]).funcs[m]? = u.module.funcs[m]? := by
    intro m hm
    simp [Module.defineFunc,Array.getElem?_modify,hm]
  refine ⟨hgu.toLater.trans hl,consistent_modify hnu _ (fun _ => ⟨rfl,rfl,rfl⟩) (hgu.consistent hs),hgu.waiting,
    hgu.joined,hgu.added,fun m g hm hg => (hothers (Ne.symm hm)).trans (hgu.kept m g hg),fun g m hg => ?_,
    fun m g hg => ?_,fun hr ledger hc => ?_,fun g hg => ?_,fun m g hg => ?_,fun hr first' root' hb' => ?_⟩
  · refine (st.calls g m hg).imp_right ?_
    rintro ⟨node,h1,h2⟩
    exact ⟨node,(hcover node).mpr h1,h2⟩
  · by_cases hm : n = m
    · subst hm
      cases hfilled.symm.trans hg
      have hhost := hsig.host
      rw [hb] at hhost
      exact .inr ⟨.inl hhost,fun E hE => .inr (.inr (.inr ⟨_,_,root,code,hcode E hE,rfl⟩))⟩
    · rcases st.helpers m g ((hothers hm).symm.trans hg) with h | ⟨_,_,h⟩ | ⟨_,_,_,_,_,rfl⟩ | ⟨_,_,h⟩
      · exact .inl h
      · exact .inr ⟨.inr h,fun _ _ => .inl h.2⟩
      · exact .inr ⟨.inl rfl,fun _ _ => .inr (.inl ⟨_,_,_,rfl⟩)⟩
      · obtain ⟨_,_,_,_,_,_,_,_,_,_,h⟩ := h
        exact .inr ⟨.inl h.host,fun _ _ => .inr (.inr (.inl ⟨_,_,h.body⟩))⟩
  · obtain ⟨new,h1,h2,h3⟩ := st.census
      (fun x hx => hI.typed_of_covers hr.kind hr.body ((hcover x).mpr hx)) ledger ⟨hc.keys,hc.places,hc.finders⟩
    exact ⟨new,h1.modify hnu _,h2,fun x => (h3 x).trans (and_congr_left fun _ => (hcover x).symm)⟩
  · cases hf.symm.trans hg
    exact ⟨_,hfilled,rfl⟩
  · by_cases hm : n = m
    · subst hm
      cases hfilled.symm.trans hg
      exact .inr ⟨f,hf,rfl⟩
    · rcases hgu.unnamed m g ((hothers hm).symm.trans hg) with h | h
      · exact .inr ⟨g,h,rfl⟩
      · exact .inl h
  · cases hb.symm.trans hb'
    cases hparams hr.signature
    refine ⟨_,⟨u.frame.vars,f.params ++ u.frame.locals⟩,code,hfilled,fun E hE => ?_⟩
    have huE := hl.trans hE
    refine ⟨rfl,fun type ht => huE.isKnown (hstu.known type ht),fun k w hw => ?_,fun w k hw => ?_,
      hstu.unshared,hcode E hE,rfl⟩
    · refine st.frame.vars w k ?_
      simpa [start] using lookup_zipIdx_of_nodup (hI.vars.param_nodup id d hr.kind) 0 hw
    · obtain ⟨τ,stored,h1,h2,h3⟩ := hstu.typed w k hw
      exact ⟨τ,stored,h1,huE.stored? h2,h3⟩

/-! ### All functions -/

/-- Code generation after the exports in `named` were declared and the functions in `done` got their bodies. -/
structure Midway (p : Program) (exports named : List (String × EntityId)) (done : List EntityId)
    (s : Emission) : Prop where
  objects : Objects p s
  consistent : s.Consistent p
  reached : ∀ id n, s.funcs.lookup id = some n → p.Reached exports id
  nodup : (done ++ s.queue).Nodup
  known : ∀ id ∈ done, ∃ n, s.funcs.lookup id = some n
  waiting : ∀ id n, s.funcs.lookup id = some n → id ∈ done ∨ id ∈ s.queue ∨
    ∃ d module name, p.entities.kind id = .function d ∧ d.body = .host module name
  exported : p.ExportsOk exports → ∀ name id, (name, id) ∈ named → ∃ n f, s.funcs.lookup id = some n ∧
    s.module.funcs[n]? = some f ∧ f.exportName = some name
  names : ∀ (n : Nat) f name, s.module.funcs[n]? = some f → f.exportName = some name →
    ∃ id, (name, id) ∈ named ∧ s.funcs.lookup id = some n
  compiled : p.ExportsOk exports → ∀ id ∈ done, ∀ d first root n, s.funcs.lookup id = some n →
    p.entities.kind id = .function d → d.body = .expr first root →
    ∃ f L code, s.module.funcs[n]? = some f ∧ ∀ E, s.Later E → Compiled p E d root f L code
  bare : ∀ (n : Nat) f, s.module.funcs[n]? = some f → f.host? ≠ none ∨ done = [] → f.locals = [] ∧ f.body = []
  filled : ∀ (n : Nat) f, s.module.funcs[n]? = some f → ∀ E, s.Later E → Made p E f.body
  counted : p.ExportsOk exports → ∃ ledger, s.Census p ledger ∧ (ledger.map (·.1)).Nodup ∧ ∀ x, x ∈ ledger.map (·.1) ↔ p.ValueMatch x ∧
    ∃ g ∈ done, ∃ d, p.entities.kind g = .function d ∧ d.Covers x

private theorem Midway.exportFunction {name : String} (hs : Midway p exports named [] s) (hm : (name, id) ∈ exports)
    (hid : p.ExportsOk exports → ∀ x ∈ named, x.2 ≠ id) (h : functionIndex id p s = .ok (n, t)) :
    Midway p exports (named ++ [(name, id)]) []
      { t with module := { t.module with funcs := t.module.funcs.modify n fun f => { f with exportName := some name } } } := by
  obtain ⟨hg,ha⟩ := functionIndex_ok h
  have hc := hg.consistent hs.consistent
  have hl := later_modify ha.index (fun f => { f with exportName := some name }) fun _ => ⟨rfl,rfl,rfl⟩
  have hbare : ∀ (m : Nat) f, (t.module.funcs.modify n fun f => { f with exportName := some name })[m]? = some f →
      f.locals = [] ∧ f.body = [] := by
    intro m f hf
    have hold : ∀ g, t.module.funcs[m]? = some g → g.locals = [] ∧ g.body = [] := fun g hg =>
      (ha.entries m g hg).elim (fun hg => hs.bare m g hg (.inr rfl)) And.right
    by_cases he : n = m
    · simp only [Array.getElem?_modify,he,if_true,Option.map_eq_some_iff] at hf
      obtain ⟨g,hg,rfl⟩ := hf
      exact hold g hg
    · simp only [Array.getElem?_modify,he,if_false] at hf
      exact hold f hf
  refine ⟨hs.objects.later (hg.toLater.trans hl),consistent_modify ha.index _ (fun _ => ⟨rfl,rfl,rfl⟩) hc,
    fun f m hf => ?_,hc.queue,by simp,fun f m hf => ?_,fun hok name' id' hx => ?_,fun m f name' hf hname => ?_,by simp,
    fun m f hf _ => hbare m f hf,fun m f hf _ _ => .inl (hbare m f hf).2,fun hok => ?_⟩
  · rcases ha.others f m hf with hf | rfl
    · exact hs.reached f m hf
    · exact .exported hm
  · rcases hg.added f m hf with hf | hf
    · rcases hs.waiting f m hf with hd | hq | hh
      · cases hd
      · exact .inr (.inl (hg.waiting f hq))
      · exact .inr (.inr hh)
    · exact .inr hf
  · rcases mem_append.mp hx with hx | hx
    · obtain ⟨m,f,h1,h2,h3⟩ := hs.exported hok name' id' hx
      have hne : n ≠ m := fun he => hid hok _ hx (hc.unshared id' id m (hg.funcs id' m h1) (he ▸ ha.index))
      exact ⟨m,f,hg.funcs id' m h1,by simp [Array.getElem?_modify,hne,hg.kept m f h2],h3⟩
    · cases mem_singleton.mp hx
      obtain ⟨_,f,_,hf,_⟩ := hc.entry id n ha.index
      exact ⟨n,{ f with exportName := some name },ha.index,by simp [Array.getElem?_modify,hf],rfl⟩
  · by_cases he : n = m
    · simp only [Array.getElem?_modify,he,if_true,Option.map_eq_some_iff] at hf
      obtain ⟨g,_,rfl⟩ := hf
      cases hname
      exact ⟨id,by simp,he ▸ ha.index⟩
    · simp only [Array.getElem?_modify,he,if_false] at hf
      rcases hg.unnamed m f hf with hf | hf
      · obtain ⟨id',hx,hl'⟩ := hs.names m f name' hf hname
        exact ⟨id',mem_append_left _ hx,hg.funcs id' m hl'⟩
      · rw [hf] at hname
        cases hname
  · obtain ⟨ledger,h1,h2⟩ := hs.counted hok
    exact ⟨ledger,(h1.asked hg ha).modify ha.index _,h2⟩

private theorem declareExports_ok {rest : List (String × EntityId)}
    (hx : named ++ rest = exports) (hs : Midway p exports named [] s) (h : declareExports rest p s = .ok (v, t)) :
    Midway p exports exports [] t := by
  induction rest generalizing named s with
  | nil =>
    cases h
    rw [append_nil] at hx
    exact hx ▸ hs
  | cons x rest ih =>
    obtain ⟨n,u,h1,h2⟩ := bind_ok.mp h
    have h4 := modifyModule_bind_ok.mp h2
    refine ih (by simpa using hx) (hs.exportFunction (by simp [← hx]) (fun hok y hy he => ?_) h1) h4
    have hids := hok.ids
    rw [← hx,map_append,map_cons] at hids
    exact (nodup_append.mp hids).2.2 y.2 (mem_map_of_mem hy) x.2 (.head _) he

private theorem later_dequeue (s : Emission) (queue : List EntityId) : s.Later { s with queue } :=
  { Later.refl s with fresh := fun _ _ h => .inl h }

private theorem consistent_dequeue (hs : s.Consistent p) (hq : s.queue = id :: queue) :
    Consistent p { s with queue } := by
  have hqn := hs.queue
  have hkn := hs.known
  rw [hq] at hqn hkn
  refine { hs with
    entry := fun i m hm => ?_, queue := (nodup_cons.mp hqn).2, known := fun i hi => hkn i (.tail _ hi) }
  obtain ⟨d,f,h1,h2,h3⟩ := hs.entry i m hm
  exact ⟨d,f,h1,h2,h3.later (later_dequeue s queue)⟩

private theorem Midway.define (hw : p.WellResolved) (hs : Midway p exports exports done s) (hq : s.queue = id :: queue)
    (h : defineFunction id p { s with queue } = .ok (v, t)) : Midway p exports exports (done ++ [id]) t := by
  have hnodup := hs.nodup
  rw [hq] at hnodup
  have hpop := later_dequeue s queue
  have hc := consistent_dequeue hs.consistent hq
  obtain ⟨n,hn⟩ := hs.consistent.known id (hq ▸ .head _)
  have hreach := hs.reached id n hn
  obtain ⟨d,_,hkind,_⟩ := hs.consistent.entry id n hn
  have ripe (hok : p.ExportsOk exports) : p.Ripe id d := by
    obtain ⟨_,hr⟩ := hreach.ripe hw hok
    cases hkind.symm.trans hr.kind
    exact hr
  have D := defineFunction_ok hw.inv hkind hc hn h
  have hl : s.Later t := hpop.trans D.later
  have hdone : ∀ i ∈ done ++ [id], ∃ m, s.funcs.lookup i = some m := by
    intro i hi
    rcases mem_append.mp hi with hi | hi
    · exact hs.known i hi
    · exact ⟨n,mem_singleton.mp hi ▸ hn⟩
  refine ⟨hs.objects.later hl,D.consistent,fun g m hg => ?_,?_,fun i hi => ?_,fun i m hi => ?_,
    fun hok name i hi => ?_,fun m f name hf hname => ?_,fun hok i hi e first root m hm hk hb => ?_,
    fun m f hf hh => ?_,fun m f hf E hE => ?_,fun hok => ?_⟩
  · rcases D.calls g m hg with hg | ⟨node,hcov,hcall⟩
    · exact hs.reached g m hg
    · exact .called hreach hkind hcov hcall
  · have h1 : ((done ++ [id]) ++ queue).Nodup := by simpa using hnodup
    obtain ⟨h2,_,h3⟩ := nodup_append.mp h1
    refine nodup_append.mpr ⟨h2,D.consistent.queue,fun a ha b hb hab => ?_⟩
    rcases D.joined b hb with hb | hb
    · exact h3 a ha b hb hab
    · obtain ⟨m,hm⟩ := hdone a ha
      rw [hab,show s.funcs.lookup b = none from hb] at hm
      cases hm
  · exact (hdone i hi).imp fun m hm => hl.funcs i m hm
  · rcases D.added i m hi with hi | hi
    · rcases hs.waiting i m hi with hd | hd | hd
      · exact .inl (mem_append_left _ hd)
      · rw [hq] at hd
        rcases mem_cons.mp hd with rfl | hd
        · exact .inl (by simp)
        · exact .inr (.inl (D.waiting i hd))
      · exact .inr (.inr hd)
    · exact .inr hi
  · obtain ⟨m,f,h1,h2,h3⟩ := hs.exported hok name i hi
    by_cases hm : m = n
    · subst hm
      obtain ⟨g,hg,hname⟩ := D.exportName f h2
      exact ⟨m,g,hl.funcs i m h1,hg,hname.trans h3⟩
    · exact ⟨m,f,hl.funcs i m h1,D.kept m f hm h2,h3⟩
  · rcases D.named m f hf with h | ⟨g,hg,hsame⟩
    · rw [h] at hname
      cases hname
    · obtain ⟨i,hx,hi⟩ := hs.names m g name hg (hsame ▸ hname)
      exact ⟨i,hx,hl.funcs i m hi⟩
  · rcases mem_append.mp hi with hi | hi
    · obtain ⟨m',hm'⟩ := hs.known i hi
      cases hm.symm.trans (hl.funcs i m' hm')
      obtain ⟨f,L,code,hf,hcode⟩ := hs.compiled hok i hi e first root m hm' hk hb
      have hne : m ≠ n := by
        rintro rfl
        exact (nodup_append.mp hnodup).2.2 i hi id (.head _) (hs.consistent.unshared i id m hm' hn)
      exact ⟨f,L,code,D.kept m f hne hf,fun E hE => hcode E (hl.trans hE)⟩
    · cases mem_singleton.mp hi
      cases hm.symm.trans (hl.funcs id n hn)
      cases hk.symm.trans hkind
      exact D.compiled (ripe hok) first root hb
  · rcases D.bare m f hf with hf | ⟨hf | hf,_⟩
    · exact hs.bare m f hf (.inl (hh.resolve_right (by simp)))
    · exact absurd hf (hh.resolve_right (by simp))
    · exact hf
  · exact (D.bare m f hf).elim (fun hf => hs.filled m f hf E (hl.trans hE)) fun hf => hf.2 E hE
  · obtain ⟨ledger,h1,h2,h3⟩ := hs.counted hok
    obtain ⟨new,h4,h5,h6⟩ := D.census (ripe hok) ledger ⟨h1.keys,h1.places,h1.finders⟩
    -- a node belongs to one function, and this one had no body before
    refine ⟨ledger ++ new,h4,?_,fun x => ?_⟩
    · rw [map_append]
      refine nodup_append.mpr ⟨h2,h5,?_⟩
      rintro x hx _ hx' rfl
      obtain ⟨_,g,hg,e,hk,hc⟩ := (h3 x).mp hx
      cases hw.inv.bodies g id e d x hk hkind hc ((h6 x).mp hx').1
      exact (nodup_append.mp hnodup).2.2 id hg id (.head _) rfl
    · rw [map_append,mem_append,h3,h6]
      constructor
      · rintro (⟨hm,g,hg,hx⟩ | ⟨hx,hm⟩)
        · exact ⟨hm,g,mem_append_left _ hg,hx⟩
        · exact ⟨hm,id,by simp,d,hkind,hx⟩
      · rintro ⟨hm,g,hg,e,hk,hx⟩
        rcases mem_append.mp hg with hg | hg
        · exact .inl ⟨hm,g,hg,e,hk,hx⟩
        · cases mem_singleton.mp hg
          cases hk.symm.trans hkind
          exact .inr ⟨hx,hm⟩

/-- Functions that were declared are among the entities, so they are not more than these. -/
private theorem Midway.length_le (hs : Midway p exports named done s) :
    done.length + s.queue.length ≤ p.entities.size := by
  have hsub : (done ++ s.queue).map EntityId.index ⊆ List.range p.entities.size := by
    intro n hn
    obtain ⟨id,hid,rfl⟩ := mem_map.mp hn
    have hk : ∃ m, s.funcs.lookup id = some m := (mem_append.mp hid).elim (hs.known id) (hs.consistent.known id)
    obtain ⟨m,hm⟩ := hk
    obtain ⟨d,f,hkind,_⟩ := hs.consistent.entry id m hm
    exact mem_range.mpr (EntityTable.lt_size_of_kind (by simp [hkind]))
  have hnodup : ((done ++ s.queue).map EntityId.index).Nodup :=
    hs.nodup.map fun a b hab => by cases a; cases b; simp_all
  simpa using (subperm_of_subset hnodup hsub).length_le

private theorem defining_of_drain {steps : Nat} (h : drain steps p s = .ok (v, t)) :
    ∃ order, Defining p order s t ∧ (t.queue = [] ∨ order.length = steps) := by
  induction steps generalizing s with
  | zero =>
    obtain ⟨_,rfl⟩ := pure_ok.mp h
    exact ⟨[],.nil s,.inr rfl⟩
  | succ steps ih =>
    have h2 := get_bind_ok.mp h
    cases hq : s.queue with
    | nil =>
      simp only [hq] at h2
      obtain ⟨_,rfl⟩ := pure_ok.mp h2
      exact ⟨[],.nil s,.inl hq⟩
    | cons id queue =>
      simp only [hq] at h2
      obtain ⟨_,w,h5,h6⟩ := bind_ok.mp (modify_bind_ok.mp h2)
      obtain ⟨order,ho,hl⟩ := ih h6
      exact ⟨id :: order,.cons hq h5 ho,hl.imp_right (congrArg Nat.succ)⟩

private theorem Midway.defining (hw : p.WellResolved) {order : List EntityId}
    (h : Defining p order s t) (hs : Midway p exports exports done s) : Midway p exports exports (done ++ order) t := by
  induction h generalizing done with
  | nil => rwa [append_nil]
  | cons hq hd _ ih => simpa using ih (hs.define hw hq hd)

private theorem midway_of_declareObjects (hI : p.Inv) (h : declareObjects p {} = .ok (v, s)) :
    Midway p exports [] [] s := by
  obtain ⟨ho,hc,hf,hq,hmf⟩ := declareObjects_ok hI h
  have ht : s.extendsFunction = none := Option.eq_none_iff_forall_ne_some.mpr fun n hn => by
    obtain ⟨_,_,_,_,_,_,hg⟩ := hc.tester n hn
    simp [hmf] at hg
  exact ⟨ho,hc,by simp [hf],by simp [hq],by simp,by simp [hf],by simp,by simp [hmf],by simp,by simp [hmf],by simp [hmf],
    fun _ => ⟨[],⟨by simp [hf],by simp [hf,hmf,ht],by simp⟩,by simp⟩⟩

/-- The functions of a program get their bodies after its exports are declared, until none waits. -/
theorem midway_of_program (hw : p.WellResolved) (h : program exports p {} = .ok (v, E)) :
    ∃ s order, Defining p order s E ∧ Midway p exports exports [] s ∧ Midway p exports exports order E ∧
      E.queue = [] := by
  obtain ⟨_,s1,h1,h2⟩ := bind_ok.mp h
  obtain ⟨_,s2,h3,h4⟩ := bind_ok.mp h2
  have hstart := declareExports_ok (nil_append exports) (midway_of_declareObjects hw.inv h1) h3
  obtain ⟨order,hd,hsteps⟩ := defining_of_drain (read_bind_ok.mp h4)
  have hend := hstart.defining hw hd
  rw [nil_append] at hend
  have hlength := hend.length_le
  exact ⟨s2,order,hd,hstart,hend,hsteps.elim id fun hl => eq_nil_of_length_eq_zero (by omega)⟩

/-- Every function that was asked for has its body, and every body is that of a function reached. -/
theorem lowered_of_program (hw : p.WellResolved) (he : p.ExportsOk exports)
    (h : program exports p {} = .ok (v, E)) : Lowered p exports E := by
  obtain ⟨s,order,hd,hstart,hend,hempty⟩ := midway_of_program hw h
  have hin : ∀ g n d first root, E.funcs.lookup g = some n → p.entities.kind g = .function d →
      d.body = .expr first root → g ∈ order := by
    intro g n d first root hn hk hb
    rcases hend.waiting g n hn with hd | hd | ⟨d',_,_,hk',hb'⟩
    · exact hd
    · rw [hempty] at hd
      cases hd
    · cases hk.symm.trans hk'
      cases hb.symm.trans hb'
  refine ⟨hend.objects,hend.consistent,hend.reached,hend.exported he,hend.names,fun id n d first root f hn hk hb hf => ?_,
    fun n f hf hh => hend.bare n f hf (.inl hh),fun n f hf => hend.filled n f hf E (.refl E),?_,s,order,hd,?_,fun f hf => ?_,hend.known,hin⟩
  · obtain ⟨g,L,code,hg,hcode⟩ := hend.compiled he id (hin id n d first root hn hk hb) d first root n hn hk hb
    cases hf.symm.trans hg
    exact ⟨L,code,hcode E (.refl E)⟩
  · obtain ⟨ledger,h1,h2,h3⟩ := hend.counted he
    refine ⟨ledger,h1,h2,fun x => (h3 x).trans (and_congr_right fun _ => ⟨?_,?_⟩)⟩
    · rintro ⟨g,hg,d,hk,hx⟩
      obtain ⟨n,hn⟩ := hend.known g hg
      exact ⟨g,n,d,hn,hk,hx⟩
    · rintro ⟨g,n,d,hn,hk,first,root,hb,hx⟩
      exact ⟨g,hin g n d first root hn hk hb,d,hk,first,root,hb,hx⟩
  · exact (nodup_append.mp hend.nodup).1
  · obtain ⟨n,hn⟩ := Array.mem_iff_getElem?.mp hf
    exact hstart.bare n f hn (.inr rfl)

/-- What is no function of the program is the one that looks among ancestors, or finds the case of a match. -/
theorem Lowered.helpers (h : Lowered p exports E) {f : Func} (hf : E.module.funcs[n]? = some f) :
    (∃ id, E.funcs.lookup id = some n) ∨ E.Tester f ∨
      ∃ g d node, p.Reached exports g ∧ p.entities.kind g = .function d ∧ d.Covers node ∧ p.Finder node f := by
  obtain ⟨ledger,hc,_,hnodes⟩ := h.counted
  have hn := hc.places.mem_iff.mpr (mem_range.mpr (Array.getElem?_eq_some_iff.mp hf).1)
  rcases mem_append.mp hn with hn | hn
  · rcases mem_append.mp hn with hn | hn
    · obtain ⟨⟨id,_⟩,hx,rfl⟩ := mem_map.mp hn
      exact .inl ⟨id,lookup_of_mem hc.keys hx⟩
    · obtain ⟨_,ids,exit,top,h1,h2,h3⟩ := h.consistent.tester n (Option.mem_toList.mp hn)
      exact .inr (.inl ⟨ids,exit,top,h1,h2,Option.some.inj (hf.symm.trans h3)⟩)
  · obtain ⟨x,hx,rfl⟩ := mem_map.mp hn
    obtain ⟨_,hf',hx'⟩ := hc.finders x hx
    cases hf.symm.trans hf'
    obtain ⟨_,g,m,d,hm,hk,hcov⟩ := (hnodes x.1).mp (mem_map_of_mem hx)
    exact .inr (.inr ⟨g,d,x.1,h.reached g m hm,hk,hcov,hx'⟩)

/-- The module of a program is that of the finished emission. -/
theorem lowerProgram_ok {m : Module} (h : lowerProgram p exports = .ok m) :
    ∃ v E, program exports p {} = .ok (v, E) ∧ E.module = m := by
  unfold lowerProgram at h
  rw [show ((program exports).run p).run {} = program exports p {} from rfl] at h
  cases hp : program exports p {} with
  | error d =>
    rw [hp] at h
    cases h
  | ok r =>
    rw [hp] at h
    exact ⟨r.1,r.2,rfl,by cases h; rfl⟩

end Lower

end FormCompiler
