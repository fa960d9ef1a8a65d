import FormCompiler.Proofs.Lowering.Growth
import FormCompiler.Proofs.Resolution.Invariant

/-! The storage of a function while its code is made. Each variable is bound at one node and gets a local
of its own; a match keeps its operand in a local that no variable has. -/

namespace FormCompiler

open List

open Wasm (Func Instr NumType ValueType)

variable {p : Program} {s t : Emission} {f : Frame} {params : List ValueType} {v : EntityId}

namespace Lower

/-- Tests a number against one literal after another, counting from `index`. -/
def caseTests (type : NumType) : Nat → List Literal → List Instr
  | _, [] => [.i32Const 0]
  | index, l :: ls =>
    .cond none (.binary .eq type (.localGet 0) (literal l)) [.ret (some (.i32Const (Int32.ofNat index)))] []
      :: caseTests type (index + 1) ls

/-- The function that finds the case of a match on values. -/
structure Finds (type : NumType) (stored : ValueType) (literals : List Literal) (f : Func) : Prop where
  params : f.params = [stored]
  result : f.result = some .i32
  locals : f.locals = []
  body : f.body = caseTests type 1 literals
  host : f.host? = none

end Lower

/-- Where a finished function keeps its variables, and the types of its parameters and locals. -/
structure Layout where
  vars : List (EntityId × Nat)
  slots : List ValueType

namespace Frame

/-- Storage is added and stays. New variables live behind all that was there. -/
structure Later (f g : Frame) : Prop where
  params : g.params = f.params
  locals : f.locals <+: g.locals
  vars : ∀ v n, f.vars.lookup v = some n → g.vars.lookup v = some n
  fresh : ∀ v n, g.vars.lookup v = some n → f.vars.lookup v = some n ∨ f.params + f.locals.length ≤ n

structure Within (f : Frame) (L : Layout) : Prop where
  slots : f.locals <+: L.slots.drop f.params
  vars : ∀ v n, f.vars.lookup v = some n → L.vars.lookup v = some n
  fresh : ∀ v n, L.vars.lookup v = some n → f.vars.lookup v = some n ∨ f.params + f.locals.length ≤ n

theorem Later.refl (f : Frame) : f.Later f := ⟨rfl,prefix_rfl,fun _ _ h => h,fun _ _ h => .inl h⟩

theorem Later.trans {g k : Frame} (h : f.Later g) (h' : g.Later k) : f.Later k where
  params := h'.params.trans h.params
  locals := h.locals.trans h'.locals
  vars v n hv := h'.vars v n (h.vars v n hv)
  fresh v n hv := by
    rcases h'.fresh v n hv with hv | hv
    · exact h.fresh v n hv
    · have := h.locals.length_le
      have := h.params
      exact .inr (by omega)

theorem Within.of_later {g : Frame} {L : Layout} (hw : g.Within L) (h : f.Later g) : f.Within L where
  slots := h.locals.trans (h.params ▸ hw.slots)
  vars v n hv := hw.vars v n (h.vars v n hv)
  fresh v n hv := by
    rcases hw.fresh v n hv with hv | hv
    · exact h.fresh v n hv
    · have := h.locals.length_le
      have := h.params
      exact .inr (by omega)

end Frame

namespace Program

variable (p : Program)

/-- The node calls a function that has to be there at run time. -/
def Calls (node : ExprId) (f : EntityId) : Prop :=
  ∃ n args typeArgs d, (p.exprs.get node).shape = .call n args typeArgs (some (.function f)) ∧
    p.entities.kind f = .function d ∧ d.intrinsic? = none

def ValueMatch (node : ExprId) : Prop := ∃ m, (p.exprs.get node).shape = .select m ∧ m.isTypeGuard = false

/-- The function finds the case of the match on values at a node. -/
def Finder (node : ExprId) (f : Func) : Prop :=
  ∃ m prim type stored literals, (p.exprs.get node).shape = .select m ∧
    p.exprs.typeOf m.operand = .prim prim ∧ prim.numType? = some type ∧
    (∀ s : Emission, s.stored? (.prim prim) = some stored) ∧
    m.arms.map (·.pattern) = literals.map .literal ∧ Lower.Finds type stored literals f

end Program

/-- What making code touches: the nodes it is made for and the variables it binds. -/
structure Region where
  nodes : ExprId → Prop
  vars : EntityId → Prop

variable {R A B : Region}

namespace Region

def none : Region := ⟨fun _ => False,fun _ => False⟩

def node (id : ExprId) : Region := ⟨(· = id),fun _ => False⟩

def var (v : EntityId) : Region := ⟨fun _ => False,(· = v)⟩

def about (p : Program) (nodes : ExprId → Prop) (others : List EntityId) : Region where
  nodes := nodes
  vars v := (∃ x, nodes x ∧ v ∈ (p.exprs.get x).shape.intros) ∨ v ∈ others

def span (p : Program) (lo hi : Nat) (others : List EntityId) : Region :=
  about p (fun x => lo ≤ x.index ∧ x.index < hi) others

/-- A region has two parts that do not meet. Of its nodes, only matches on values need be in either. -/
structure Splits (p : Program) (R A B : Region) : Prop where
  nodes : ∀ x, A.nodes x ∨ B.nodes x → R.nodes x
  vars : ∀ v, A.vars v ∨ B.vars v → R.vars v
  full : (∀ x, R.nodes x → ∃ τ, p.Typed x τ) → ∀ x, R.nodes x → p.ValueMatch x → A.nodes x ∨ B.nodes x
  apart : ∀ x, A.nodes x → ¬ B.nodes x
  unshared : ∀ v, A.vars v → ¬ B.vars v

theorem Splits.left : R.Splits p .none R :=
  ⟨fun _ h => h.elim False.elim id,fun _ h => h.elim False.elim id,fun _ _ h _ => .inr h,fun _ => False.elim,
    fun _ => False.elim⟩

theorem Splits.right : R.Splits p R .none :=
  ⟨fun _ h => h.elim id False.elim,fun _ h => h.elim id False.elim,fun _ _ h _ => .inl h,fun _ _ => id,
    fun _ _ => id⟩

theorem Splits.symm (h : R.Splits p A B) : R.Splits p B A :=
  ⟨fun x hx => h.nodes x hx.symm,fun v hv => h.vars v hv.symm,fun ht x hx hm => (h.full ht x hx hm).symm,
    fun x hb ha => h.apart x ha hb,fun v hb ha => h.unshared v ha hb⟩

end Region

namespace Emission

variable {id : EntityId} {n : Nat}

/-- The function looks for a number among ancestors. -/
def Tester (s : Emission) (f : Func) : Prop :=
  ∃ ids exit top, s.idsArray = some ids ∧ exit ≠ top ∧ f = extendsFunc ids exit top

/-- Variables live in locals of their type, each in its own. `params` are the types of the parameters. -/
structure Storage (p : Program) (params : List ValueType) (s : Emission) : Prop where
  count : s.frame.params = params.length
  known : ∀ t ∈ params ++ s.frame.locals, t.isKnown s.module = true
  typed : ∀ v n, s.frame.vars.lookup v = some n → ∃ τ stored, p.VarOf v τ ∧ s.stored? τ = some stored ∧
    (params ++ s.frame.locals)[n]? = some stored
  unshared : ∀ v w n, s.frame.vars.lookup v = some n → s.frame.vars.lookup w = some n → v = w

/-- The functions of the module, each counted once: those of the program, the one that looks among ancestors, and those
that find the case of a match on values. The ledger has the node and the place of each of the latter. -/
structure Census (p : Program) (ledger : List (ExprId × Nat)) (s : Emission) : Prop where
  keys : (s.funcs.map (·.1)).Nodup
  places : (s.funcs.map (·.2) ++ s.extendsFunction.toList ++ ledger.map (·.2)).Perm (List.range s.module.funcs.size)
  finders : ∀ x ∈ ledger, ∃ f, s.module.funcs[x.2]? = some f ∧ p.Finder x.1 f

structure Step (p : Program) (R : Region) (s t : Emission) : Prop where
  grows : s.Grows p t
  frame : s.frame.Later t.frame
  binds : ∀ v n, t.frame.vars.lookup v = some n → s.frame.vars.lookup v = some n ∨ R.vars v
  storage : ∀ params, s.Storage p params → t.Storage p params
  calls : ∀ f n, t.funcs.lookup f = some n → s.funcs.lookup f = some n ∨ ∃ x, R.nodes x ∧ p.Calls x f
  helpers : ∀ (n : Nat) f, t.module.funcs[n]? = some f → s.module.funcs[n]? = some f ∨
    (∃ id, t.funcs.lookup id = some n ∧ f.locals = [] ∧ f.body = []) ∨ t.Tester f ∨ ∃ x, R.nodes x ∧ p.Finder x f
  census : (∀ x, R.nodes x → ∃ τ, p.Typed x τ) → ∀ ledger, s.Census p ledger → ∃ new, t.Census p (ledger ++ new) ∧
    (new.map (·.1)).Nodup ∧ ∀ x, x ∈ new.map (·.1) ↔ R.nodes x ∧ p.ValueMatch x

variable {u : Emission} {ledger : List (ExprId × Nat)}

theorem Later.setFrame (s : Emission) (frame : Frame) : s.Later { s with frame } := { Later.refl s with }

theorem Storage.later (hs : s.Storage p params) (h : s.Later t) (hf : t.frame = s.frame) : t.Storage p params where
  count := hf ▸ hs.count
  known t ht := h.isKnown (hs.known t (hf ▸ ht))
  typed v n hv := by
    rw [hf] at hv ⊢
    obtain ⟨τ,stored,h1,h2,h3⟩ := hs.typed v n hv
    exact ⟨τ,stored,h1,h.stored? h2,h3⟩
  unshared := hf ▸ hs.unshared

namespace Census

theorem same (h : s.Census p ledger) (hf : t.funcs = s.funcs) (he : t.extendsFunction = s.extendsFunction)
    (hm : t.module.funcs = s.module.funcs) : t.Census p ledger :=
  ⟨hf ▸ h.keys,by rw [hf,he,hm]; exact h.places,hm ▸ h.finders⟩

/-- One more function, counted in one place. -/
theorem push {more : List (ExprId × Nat)} (h : s.Census p ledger) (hk : (t.funcs.map (·.1)).Nodup)
    (hm : t.module.funcs.size = s.module.funcs.size + 1)
    (hp : (t.funcs.map (·.2) ++ t.extendsFunction.toList ++ more.map (·.2)).Perm
      (s.module.funcs.size :: (s.funcs.map (·.2) ++ s.extendsFunction.toList ++ ledger.map (·.2))))
    (hf : ∀ x ∈ more, ∃ f, t.module.funcs[x.2]? = some f ∧ p.Finder x.1 f) : t.Census p more := by
  refine ⟨hk,hp.trans ?_,hf⟩
  rw [hm,range_succ]
  exact (h.places.cons _).trans (perm_append_singleton _ _).symm

theorem idle (h : t.Census p ledger) (hR : ∀ x, R.nodes x → ¬ p.ValueMatch x) : ∃ new, t.Census p (ledger ++ new) ∧
    (new.map (·.1)).Nodup ∧ ∀ x, x ∈ new.map (·.1) ↔ R.nodes x ∧ p.ValueMatch x :=
  ⟨[],by simpa using h,by simp,by simpa using hR⟩

theorem asked (h : s.Census p ledger) (hg : s.Grows p t) (ha : Lower.Asked s t id n) : t.Census p ledger := by
  have hf : ∀ x ∈ ledger, ∃ f, t.module.funcs[x.2]? = some f ∧ p.Finder x.1 f := fun x hx =>
    (h.finders x hx).imp fun f hf => ⟨hg.kept _ f hf.1,hf.2⟩
  rcases ha.counted with ⟨hs,hm⟩ | ⟨hno,hs,hm⟩
  · exact ⟨hs ▸ h.keys,by rw [hs,ha.tester,hm]; exact h.places,hf⟩
  · refine h.push ?_ hm (by simp [hs,ha.tester]) hf
    rw [hs,map_cons,nodup_cons]
    refine ⟨fun hid => ?_,h.keys⟩
    obtain ⟨⟨_,m⟩,hx,rfl⟩ := mem_map.mp hid
    rw [lookup_of_mem h.keys hx] at hno
    cases hno

theorem modify (h : s.Census p ledger) (hn : s.funcs.lookup id = some n) (change : Func → Func) :
    Census p ledger { s with module := { s.module with funcs := s.module.funcs.modify n change } } := by
  refine ⟨h.keys,by simpa using h.places,fun x hx => ?_⟩
  obtain ⟨f,hf,hx'⟩ := h.finders x hx
  have hne : n ≠ x.2 := (nodup_append.mp (h.places.nodup_iff.mpr nodup_range)).2.2 n
    (mem_append_left _ (mem_map_of_mem (mem_of_lookup hn))) x.2 (mem_map_of_mem hx)
  exact ⟨f,by simp [Array.getElem?_modify,hne,hf],hx'⟩

end Census

namespace Step

theorem of_quiet (h : s.Quiet p t) : s.Step p .none t where
  grows := h.toGrows
  frame := h.frame ▸ .refl s.frame
  binds _ _ hv := .inl (h.frame ▸ hv)
  storage _ hs := hs.later h.toLater h.frame
  calls _ _ hf := .inl (h.same ▸ hf)
  helpers _ _ hf := .inl (h.defined ▸ hf)
  census _ _ hc := (hc.same h.same h.tester h.defined).idle fun _ => False.elim

/-- A change of the storage alone. -/
theorem of_frame {frame : Frame} (hR : ∀ x, ¬ R.nodes x) (hf : s.frame.Later frame)
    (hb : ∀ v n, frame.vars.lookup v = some n → s.frame.vars.lookup v = some n ∨ R.vars v)
    (hs : ∀ params, s.Storage p params → Storage p params { s with frame }) : s.Step p R { s with frame } where
  grows := .of_later (.setFrame s _) (fun _ _ _ h => .inl h) rfl rfl rfl rfl
  frame := hf
  binds := hb
  storage := hs
  calls _ _ h := .inl h
  helpers _ _ h := .inl h
  census _ _ hc := Census.idle ⟨hc.keys,hc.places,hc.finders⟩ fun x hx => absurd hx (hR x)

/-- Asking for the function that a node calls. -/
theorem of_asked (h : s.Grows p t) (ha : Lower.Asked s t id n) {node : ExprId}
    (hc : p.Calls node id) : s.Step p (.node node) t where
  grows := h
  frame := ha.frame ▸ .refl s.frame
  binds _ _ hv := .inl (ha.frame ▸ hv)
  storage _ hs := hs.later h.toLater ha.frame
  calls f m hf := (ha.others f m hf).imp_right fun (he : f = id) => ⟨node,rfl,he ▸ hc⟩
  helpers m g hg := (ha.entries m g hg).imp_right fun (h : m = n ∧ g.locals = [] ∧ g.body = []) =>
    .inl ⟨id,h.1 ▸ ha.index,h.2⟩
  census _ _ hs := by
    refine (hs.asked h ha).idle fun x hx => ?_
    rintro ⟨m,hm,_⟩
    cases hx
    obtain ⟨_,_,_,_,hshape,_⟩ := hc
    rw [hm] at hshape
    cases hshape

theorem refl (p : Program) (s : Emission) : s.Step p .none s := .of_quiet (.refl p s)

theorem trans (hs : R.Splits p A B) (h : s.Step p A t) (k : t.Step p B u) : s.Step p R u where
  grows := h.grows.trans k.grows
  frame := h.frame.trans k.frame
  binds v n hv := by
    rcases k.binds v n hv with hv | hv
    · exact (h.binds v n hv).imp_right fun hv => hs.vars v (.inl hv)
    · exact .inr (hs.vars v (.inr hv))
  storage params hs := k.storage params (h.storage params hs)
  calls f n hf := by
    rcases k.calls f n hf with hf | ⟨x,hx,hc⟩
    · exact (h.calls f n hf).imp_right fun ⟨x,hx,hc⟩ => ⟨x,hs.nodes x (.inl hx),hc⟩
    · exact .inr ⟨x,hs.nodes x (.inr hx),hc⟩
  helpers n f hf := by
    rcases k.helpers n f hf with hf | hf | hf | ⟨x,hx,hf⟩
    · rcases h.helpers n f hf with hf | ⟨id,hid,hb⟩ | ⟨ids,exit,top,hi,hne,he⟩ | ⟨x,hx,hf⟩
      · exact .inl hf
      · exact .inr (.inl ⟨id,k.grows.funcs id n hid,hb⟩)
      · exact .inr (.inr (.inl ⟨ids,exit,top,k.grows.idsArray.trans hi,hne,he⟩))
      · exact .inr (.inr (.inr ⟨x,hs.nodes x (.inl hx),hf⟩))
    · exact .inr (.inl hf)
    · exact .inr (.inr (.inl hf))
    · exact .inr (.inr (.inr ⟨x,hs.nodes x (.inr hx),hf⟩))
  census ht ledger hc := by
    obtain ⟨first,h1,hn1,hm1⟩ := h.census (fun x hx => ht x (hs.nodes x (.inl hx))) ledger hc
    obtain ⟨second,h2,hn2,hm2⟩ := k.census (fun x hx => ht x (hs.nodes x (.inr hx))) _ h1
    refine ⟨first ++ second,by rwa [← append_assoc],?_,fun x => ?_⟩
    · rw [map_append]
      exact nodup_append.mpr ⟨hn1,hn2,fun a ha b hb hab => hs.apart a ((hm1 a).mp ha).1 (hab ▸ ((hm2 b).mp hb).1)⟩
    · rw [map_append,mem_append,hm1,hm2,← or_and_right]
      exact ⟨fun h => ⟨hs.nodes x h.1,h.2⟩,fun h => ⟨hs.full ht x h.1 h.2,h.2⟩⟩

/-- A variable outside the region stays unbound. -/
theorem unbound (h : s.Step p R t) (hv : ¬ R.vars v) (hs : s.frame.vars.lookup v = none) :
    t.frame.vars.lookup v = none := by
  refine Option.eq_none_iff_forall_ne_some.mpr fun n ht => ?_
  rcases h.binds v n ht with hn | hn
  · rw [hs] at hn
    cases hn
  · exact hv hn

end Step

end Emission

namespace Lower

open Emission

variable {type : ValueType} {n : Nat}

/-- The storage of a function with one more local. -/
private theorem later_newLocal (f : Frame) (type : ValueType) : f.Later { f with locals := f.locals ++ [type] } :=
  ⟨rfl,prefix_append _ _,fun _ _ h => h,fun _ _ h => .inl h⟩

private theorem storage_newLocal (hs : s.Storage p params) (ht : type.isKnown s.module = true) :
    Storage p params { s with frame := { s.frame with locals := s.frame.locals ++ [type] } } where
  count := hs.count
  known t hm := by
    rw [← append_assoc,mem_append,mem_singleton] at hm
    rcases hm with hm | rfl
    · exact hs.known t hm
    · exact ht
  typed v n hv := by
    obtain ⟨τ,stored,h1,h2,h3⟩ := hs.typed v n hv
    refine ⟨τ,stored,h1,(Later.setFrame s _).stored? h2,?_⟩
    rw [← List.append_assoc]
    exact List.getElem?_append_left (List.getElem?_eq_some_iff.mp h3).1 ▸ h3
  unshared := hs.unshared

private theorem lt_of_storage (hs : s.Storage p params)
    (hv : s.frame.vars.lookup v = some n) : n < s.frame.params + s.frame.locals.length := by
  obtain ⟨_,_,_,_,h⟩ := hs.typed v n hv
  have hlt := (List.getElem?_eq_some_iff.mp h).1
  rw [List.length_append] at hlt
  rw [hs.count]
  exact hlt

/-- The type of the last local, in the finished function too. -/
private theorem slot_newLocal {L : Layout} (h : Frame.Within { f with locals := f.locals ++ [type] } L) :
    L.slots[f.params + f.locals.length]? = some type := by
  rw [← getElem?_drop]
  exact (prefix_iff_getElem?.mp h.slots f.locals.length (by simp)).trans (by simp)

/-- A local that holds no variable, in the finished function either. -/
theorem newLocal_ok (h : newLocal type p s = .ok (n, t)) (ht : type.isKnown s.module = true) :
    s.Step p .none t ∧ ∀ params, s.Storage p params → ∀ L : Layout, t.frame.Within L →
      L.slots[n]? = some type ∧ ∀ v, L.vars.lookup v ≠ some n := by
  obtain ⟨rfl,rfl⟩ := modifyGet_ok.mp h
  refine ⟨.of_frame (fun _ => id) (later_newLocal s.frame type) (fun _ _ hv => .inl hv)
    fun params hs => storage_newLocal hs ht,fun params hs L hL => ⟨slot_newLocal hL,fun v hv => ?_⟩⟩
  rcases hL.fresh v _ hv with hv | hv
  · exact Nat.lt_irrefl _ (lt_of_storage hs hv)
  · simp only [length_append,length_singleton] at hv
    omega

/-- A variable that was not bound gets a local. -/
theorem bindVar_ok (h : bindVar v p s = .ok (n, t)) (hs : s.frame.vars.lookup v = none)
    (hc : s.Consistent p) : s.Step p (.var v) t ∧ t.frame.vars.lookup v = some n := by
  have h2 := read_bind_ok.mp h
  cases hk : (p.entities.get v).kind with
  | var τ mutable =>
    simp only [hk] at h2
    obtain ⟨type,u,h3,h4⟩ := bind_ok.mp h2
    obtain ⟨slot,w,h5,h6⟩ := bind_ok.mp h4
    have h8 := modify_bind_ok.mp h6
    cases h8
    obtain ⟨q,htype⟩ := storedType_ok h3
    obtain ⟨rfl,rfl⟩ := modifyGet_ok.mp h5
    have hv' : u.frame.vars.lookup v = none := by rw [q.frame,hs]
    refine ⟨Step.trans .left (.of_quiet q) ?_,lookup_cons_self⟩
    have hne : ∀ {w : EntityId} {n : Nat}, u.frame.vars.lookup w = some n → (w == v) = false := by
      intro w n hw
      refine beq_eq_false_iff_ne.mpr ?_
      rintro rfl
      rw [hv'] at hw
      cases hw
    have hcases : ∀ {w : EntityId} {n : Nat},
        ((v, u.frame.params + u.frame.locals.length) :: u.frame.vars).lookup w = some n →
        w = v ∧ n = u.frame.params + u.frame.locals.length ∨ u.frame.vars.lookup w = some n := by
      intro w n hw
      rw [lookup_cons] at hw
      split at hw
      · rename_i he
        exact .inl ⟨beq_iff_eq.mp he,(Option.some.inj hw).symm⟩
      · exact .inr hw
    refine .of_frame (fun _ => id) ⟨rfl,prefix_append _ _,?_,?_⟩ ?_ ?_
    · intro w n hw
      rw [lookup_cons,hne hw]
      exact hw
    · intro w n hw
      rcases hcases hw with ⟨_,rfl⟩ | hw
      · exact .inr (Nat.le_refl _)
      · exact .inl hw
    · intro w n hw
      rcases hcases hw with ⟨rfl,_⟩ | hw
      · exact .inr rfl
      · exact .inl hw
    · intro params hst
      have hst' := storage_newLocal hst ((q.consistent hc).stored?_known htype)
      refine ⟨hst'.count,hst'.known,?_,?_⟩
      · intro w n hw
        rcases hcases hw with ⟨rfl,rfl⟩ | hw
        · refine ⟨τ,type,⟨mutable,hk⟩,(Later.setFrame u _).stored? htype,?_⟩
          rw [hst.count,← append_assoc,← length_append]
          simp
        · obtain ⟨σ,stored,h1,h2,h3⟩ := hst'.typed w n hw
          exact ⟨σ,stored,h1,(Later.setFrame { u with
            frame := { u.frame with locals := u.frame.locals ++ [type] } } _).stored? h2,h3⟩
      · intro w x n hw hx
        rcases hcases hw with ⟨rfl,rfl⟩ | hw'
        · rcases hcases hx with ⟨rfl,_⟩ | hx'
          · rfl
          · exact absurd (lt_of_storage hst hx') (Nat.lt_irrefl _)
        · rcases hcases hx with ⟨rfl,rfl⟩ | hx'
          · exact absurd (lt_of_storage hst hw') (Nat.lt_irrefl _)
          · exact hst.unshared w x n hw' hx'
  | _ => simp [hk] at h2

theorem varLocal_ok {binding : Option EntityId} {location : Location} : varLocal binding location p s = .ok (n, t) ↔
      (∃ v, binding = some v ∧ s.frame.vars.lookup v = some n) ∧ s = t := by
  unfold varLocal
  simp only [bind_ok,get_ok]
  constructor
  · rintro ⟨_,_,⟨rfl,rfl⟩,h⟩
    cases binding with
    | none => simp at h
    | some v =>
      cases hl : s.frame.vars.lookup v with
      | some index =>
        simp only [Option.bind_some,hl,pure_ok] at h
        exact ⟨⟨v,rfl,hl.trans (congrArg some h.1)⟩,h.2⟩
      | none => simp [hl] at h
  · rintro ⟨⟨v,rfl,hl⟩,rfl⟩
    exact ⟨s,s,⟨rfl,rfl⟩,by simp [hl]⟩

end Lower

end FormCompiler
