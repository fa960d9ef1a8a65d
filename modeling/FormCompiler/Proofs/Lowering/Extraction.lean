import FormCompiler.Proofs.Lowering.Code
import FormCompiler.Proofs.Resolution.Bodies

/-! The code that is made for a node stands for it. Each action of code generation has a rule that says which region
it works on and what it learns; what it learns holds of the finished emission. -/

namespace FormCompiler

open List

open Wasm (Func Instr LabelId Module NumType ValueType)

variable {p : Program} {v object : EntityId} {τ : Ty} {id literal value x : ExprId} {R A B : Region}
/-- An initialiser of a new object belongs to a field of the layout. -/
theorem Program.Inv.initialised (hI : p.Inv)
    {name : String} {given : List (String × ExprId)} (ht : p.CallTyped [literal] (.construct object) τ)
    (hg : (p.exprs.get literal).shape = .object given) (hm : (name, value) ∈ given) :
    ∃ field ∈ p.layout object, given.lookup field.name = some value := by
  obtain _ | @⟨_,_,_,d,hg',hliteral,hk,_,_,hall⟩ := ht
  cases hg.symm.trans hg'
  obtain ⟨field,hfield,_⟩ := hall name _ hm
  have hlayout : p.layout object = d.fields := by simp [Program.layout,EntityTable.object?_eq_some.mpr hk]
  have hname : field.name = name := by simpa using find?_some hfield
  have hnode := (hI.nodes _ _ hliteral).1
  rw [hg] at hnode
  cases hnode with
  | object hnodup =>
    exact ⟨field,hlayout ▸ mem_of_find?_eq_some hfield,hname ▸ lookup_of_mem hnodup hm⟩

/-! ### Regions -/

section Tiles

variable {lo hi a b : Nat} {ids : List ExprId}

private theorem tiles_start {x y : Nat} (hx : p.exprs.Tiles x ids hi) (hy : p.exprs.Tiles y ids hi) : x = y := by
  induction hx generalizing y with
  | nil =>
    cases hy
    rfl
  | cons _ _ ih _ =>
    cases hy with
    | cons hc _ => exact ih hc

/-- The intervals of two members do not meet. -/
private theorem tiles_apart (h : p.exprs.Tiles lo ids hi) {y : ExprId} (hx : x ∈ ids) (hy : y ∈ ids)
    (hne : x ≠ y) (ha : p.exprs.Tiles a (p.exprs.get x).shape.children x.index)
    (hb : p.exprs.Tiles b (p.exprs.get y).shape.children y.index) : x.index + 1 ≤ b ∨ y.index + 1 ≤ a := by
  induction h with
  | nil => cases hx
  | @cons lo id ids hi hc hn _ ih =>
    rcases mem_cons.mp hx with rfl | hx'
    · rcases mem_cons.mp hy with rfl | hy'
      · exact absurd rfl hne
      · obtain ⟨z,hz,_,hcz⟩ := hn.mem hy'
        cases tiles_start hcz hb
        exact .inl hz
    · rcases mem_cons.mp hy with rfl | hy'
      · obtain ⟨z,hz,_,hcz⟩ := hn.mem hx'
        cases tiles_start hcz ha
        exact .inr hz
      · exact ih hx' hy'

private theorem tiles_nodup (h : p.exprs.Tiles lo ids hi) : ids.Nodup := by
  induction h with
  | nil => exact nodup_nil
  | @cons lo id ids hi hc hn _ ih =>
    refine nodup_cons.mpr ⟨fun hid => ?_,ih⟩
    obtain ⟨x,hx,_,hcx⟩ := hn.mem hid
    have := hcx.le
    omega

private theorem lookup_unique {given : List (String × ExprId)} (hn : (given.map (·.2)).Nodup) {x y : String}
    (hx : given.lookup x = some value) (hy : given.lookup y = some value) : x = y := by
  induction given with
  | nil => cases hx
  | cons entry given ih =>
    obtain ⟨name,v⟩ := entry
    simp only [map_cons,nodup_cons] at hn
    have hmem : ∀ {z}, given.lookup z = some v → False := fun hz => hn.1 (mem_map_of_mem (mem_of_lookup hz))
    rw [lookup_cons] at hx hy
    split at hx <;> split at hy
    · rename_i _ h1 _ h2
      rw [beq_iff_eq.mp h1,beq_iff_eq.mp h2]
    · cases hx
      exact (hmem hy).elim
    · cases hy
      exact (hmem hx).elim
    · exact ih hn.2 hx hy

private theorem tiles_only (h : p.exprs.Tiles lo [id] hi) :
    p.exprs.Tiles lo (p.exprs.get id).shape.children id.index ∧ id.index + 1 = hi := by
  cases h with
  | cons hc hn =>
    cases hn
    exact ⟨hc,rfl⟩

end Tiles

namespace Region

variable {lo mid hi : Nat} {xs ys : List EntityId}

private theorem about_splits {N N₁ N₂ : ExprId → Prop} (hp : p.VarsOk) (hN : ∀ x, N₁ x ∨ N₂ x → N x)
    (hf : (∀ x, N x → ∃ τ, p.Typed x τ) → ∀ x, N x → p.ValueMatch x → N₁ x ∨ N₂ x) (ha : ∀ x, N₁ x → ¬ N₂ x)
    (hn : (xs ++ ys).Nodup) (ho : ∀ x, N x → ∀ v ∈ xs ++ ys, v ∉ (p.exprs.get x).shape.intros) :
    (about p N (xs ++ ys)).Splits p (about p N₁ xs) (about p N₂ ys) where
  nodes := hN
  vars := by
    rintro v ((⟨x,hx,hv⟩ | hv) | (⟨x,hx,hv⟩ | hv))
    · exact .inl ⟨x,hN x (.inl hx),hv⟩
    · exact .inr (mem_append_left _ hv)
    · exact .inl ⟨x,hN x (.inr hx),hv⟩
    · exact .inr (mem_append_right _ hv)
  full := hf
  apart := ha
  unshared := by
    rintro v (⟨x,hx,hv⟩ | hv) (⟨y,hy,hw⟩ | hw)
    · exact ha x hx (hp.intro_unique x y v hv hw ▸ hy)
    · exact ho x (hN x (.inl hx)) v (mem_append_right _ hw) hv
    · exact ho y (hN y (.inr hy)) v (mem_append_left _ hv) hw
    · exact (nodup_append.mp hn).2.2 v hv v hw rfl

/-- Nodes before a place and nodes from there on. -/
theorem span_splits (hp : p.VarsOk) (h₁ : lo ≤ mid) (h₂ : mid ≤ hi) (hn : (xs ++ ys).Nodup)
    (ho : ∀ x : ExprId, lo ≤ x.index ∧ x.index < hi → ∀ v ∈ xs ++ ys, v ∉ (p.exprs.get x).shape.intros) :
    (span p lo hi (xs ++ ys)).Splits p (span p lo mid xs) (span p mid hi ys) :=
  about_splits hp (by omega) (fun _ _ _ _ => by omega) (by omega) hn ho

private theorem span_cut (hp : p.VarsOk) (h₁ : lo ≤ mid) (h₂ : mid ≤ hi) :
    (span p lo hi []).Splits p (span p lo mid []) (span p mid hi []) :=
  @span_splits p lo mid hi [] [] hp h₁ h₂ .nil fun _ _ _ hv => absurd hv not_mem_nil

/-- The nodes below a node, and the node itself. -/
theorem span_own (hp : p.VarsOk) (hle : lo ≤ id.index) (ho : ∀ v ∈ xs, v ∈ (p.exprs.get id).shape.intros)
    (hn : ∀ x, B.nodes x → x = id) (hv : ∀ v, B.vars v → v ∈ (p.exprs.get id).shape.intros ∧ v ∉ xs)
    (hf : p.ValueMatch id → B.nodes id) : (span p lo (id.index + 1) []).Splits p (span p lo id.index xs) B where
  nodes := by
    rintro x (⟨h₁,h₂⟩ | hx)
    · exact ⟨h₁,by omega⟩
    · cases hn x hx
      exact ⟨hle,Nat.lt_succ_self _⟩
  vars := by
    rintro v ((⟨x,⟨h₁,h₂⟩,hx⟩ | hx) | hx)
    · exact .inl ⟨x,⟨h₁,by omega⟩,hx⟩
    · exact .inl ⟨id,⟨hle,by omega⟩,ho v hx⟩
    · exact .inl ⟨id,⟨hle,by omega⟩,(hv v hx).1⟩
  full := by
    rintro _ x ⟨h₁,h₂⟩ hx
    by_cases hlt : x.index < id.index
    · exact .inl ⟨h₁,hlt⟩
    · obtain rfl : x = id := congrArg ExprId.mk (show x.index = id.index by omega)
      exact .inr (hf hx)
  apart x hx hb := by
    cases hn x hb
    exact Nat.lt_irrefl _ hx.2
  unshared := by
    rintro v (⟨x,hx,hvx⟩ | hx) hb
    · cases hp.intro_unique x id v hvx (hv v hb).1
      exact Nat.lt_irrefl _ hx.2
    · exact (hv v hb).2 hx

/-- A node that brings no variable into being and is no match on values. -/
theorem span_inner (hp : p.VarsOk) (hle : lo ≤ id.index) (hm : ∀ m, (p.exprs.get id).shape ≠ .select m) :
    (span p lo (id.index + 1) []).Splits p (span p lo id.index []) .none :=
  span_own hp hle (fun _ hv => absurd hv not_mem_nil) (fun _ => False.elim) (fun _ => False.elim)
    fun ⟨m,h,_⟩ => hm m h

/-- Where there is no match on values there need be nothing to do. -/
theorem Splits.idle (h : ∀ x, R.nodes x → ¬ p.ValueMatch x) : R.Splits p .none .none :=
  ⟨fun _ h => (or_self_iff.mp h).elim,fun _ h => (or_self_iff.mp h).elim,fun _ x hx hm => absurd hm (h x hx),
    fun _ => False.elim,fun _ => False.elim⟩

private theorem span_blank (ht : p.exprs.Tiles lo [] hi) : (span p lo hi xs).Splits p .none .none := by
  cases ht
  exact .idle fun x hx => absurd hx.2 (Nat.not_lt.mpr hx.1)

private theorem span_var (ho : ∀ x : ExprId, lo ≤ x.index ∧ x.index < hi → v ∉ (p.exprs.get x).shape.intros) :
    (span p lo hi [v]).Splits p (.var v) (span p lo hi []) where
  nodes _ h := h.elim False.elim id
  vars := by
    rintro w (rfl | (hw | hw))
    · exact .inr (.head _)
    · exact .inl hw
    · cases hw
  full _ _ h _ := .inr h
  apart _ := False.elim
  unshared := by
    rintro w rfl (⟨x,hx,hw⟩ | hw)
    · exact ho x hx hw
    · cases hw

end Region

namespace Lower

open Emission
open Region (about span about_splits span_splits span_cut span_own span_inner span_blank span_var)

variable {location : Location} {binding : Option EntityId} {node : ExprId} {labels : List LabelId} {code : Instr}
  {element : Option Ty} {s t u b : Emission} {lo hi n : Nat} {keep : Bool} {f : Func} {stored : ValueType}

structure Ready (p : Program) (R : Region) (s : Emission) : Prop where
  unbound : ∀ v, R.vars v → s.frame.vars.lookup v = none
  consistent : s.Consistent p
  storage : ∃ params, s.Storage p params

/-- Run in an emission later than `b`, the action works on a region, and what it gives has a property in the finished
emission and storage. -/
def Makes {α : Type} (p : Program) (b : Emission) (R : Region) (x : Lower α) (P : α → Emission → Layout → Prop) : Prop :=
  ∀ ⦃s a t⦄, x p s = .ok (a, t) → b.Later s → Ready p R s → s.Step p R t ∧ ∀ E L, t.Later E → t.frame.Within L → P a E L

/-- The code a function makes for nodes is related to them. -/
def Extracts (p : Program) (part : ExprId → Lower Instr) (rel : Emission → Layout → ExprId → Instr → Prop) : Prop :=
  ∀ ⦃b lo id⦄, p.exprs.Tiles lo (p.exprs.get id).shape.children id.index →
    Makes p b (.span p lo (id.index + 1) []) (part id) fun code E L => rel E L id code

/-! ### Rules -/

theorem discardUnless_bind_ok {α : Type} {f : Instr → Lower α} {x : α} :
    (discardUnless keep id code >>= f) p s = .ok (x, t) ↔ f (discarded p keep id code) p s = .ok (x, t) := by
  have h : discardUnless keep id code p s = .ok (discarded p keep id code, s) := by
    unfold discarded
    show (if _ then _ else _ : Lower Instr) p s = _
    split <;> rfl
  show (discardUnless keep id code p s).bind (fun r => f r.1 p r.2) = _ ↔ _
  rw [h]
  rfl

namespace Makes

variable {α β : Type} {x : Lower α} {f : α → Lower β} {P : α → Emission → Layout → Prop}
  {Q : β → Emission → Layout → Prop}

theorem pure {a : α} (h : ∀ E L, b.Later E → P a E L) : Makes p b .none (pure a) P := by
  intro s a t hx hb _
  obtain ⟨rfl,rfl⟩ := pure_ok.mp hx
  exact ⟨.refl p s,fun E L hE _ => h E L (hb.trans hE)⟩

private theorem fail (h : ∀ {s a t}, x p s ≠ .ok (a, t)) : Makes p b R x P := fun _ _ _ hx => absurd hx h

/-- One action after another, on the two parts of a region. -/
theorem bind (hs : R.Splits p A B) (hx : Makes p b A x P)
    (hf : ∀ a c, b.Later c → Makes p c B (f a) fun r E L => P a E L → Q r E L) : Makes p b R (x >>= f) Q := by
  intro s r u h hb hr
  obtain ⟨a,t,h1,h2⟩ := bind_ok.mp h
  obtain ⟨st,hP⟩ := hx h1 hb ⟨fun v hv => hr.unbound v (hs.vars v (.inl hv)),hr.consistent,hr.storage⟩
  obtain ⟨st',hQ⟩ := hf a t (hb.trans st.grows.toLater) h2 (.refl t)
    ⟨fun v hv => st.unbound (fun hv' => hs.unshared v hv' hv) (hr.unbound v (hs.vars v (.inr hv))),
      st.grows.consistent hr.consistent,hr.storage.imp fun params => st.storage params⟩
  exact ⟨st.trans hs st',fun E L hE hL => hQ E L hE hL (hP E L (st'.grows.toLater.trans hE) (hL.of_later st'.frame))⟩

theorem imp {P' : α → Emission → Layout → Prop} (hx : Makes p b R x P) (h : ∀ a E L, P a E L → P' a E L) :
    Makes p b R x P' := fun _ _ _ hr hb hR => (hx hr hb hR).imp_right fun hP E L hE hL => h _ E L (hP E L hE hL)

private theorem last {g : α → β} (hx : Makes p b R x P) (h : ∀ a E L, b.Later E → P a E L → Q (g a) E L) :
    Makes p b R (x >>= fun a => Pure.pure (g a)) Q :=
  bind .right hx fun a _ hc => pure fun E L hE => h a E L (hc.trans hE)

private theorem fill (hs : R.Splits p A .none) (hx : Makes p b A x P) : Makes p b R x P := by
  intro s a t h hb hr
  obtain ⟨st,hP⟩ := hx h hb ⟨fun v hv => hr.unbound v (hs.vars v (.inl hv)),hr.consistent,hr.storage⟩
  exact ⟨st.trans hs (.refl p t),hP⟩

private theorem quiet {P : α → Emission → Prop}
    (h : ∀ {s a t}, x p s = .ok (a, t) → s.Quiet p t ∧ ∀ E, t.Later E → P a E) : Makes p b .none x fun a E _ => P a E :=
  fun _ _ _ hx _ _ => ⟨.of_quiet (h hx).1,fun E _ hE _ => (h hx).2 E hE⟩

/-- An action that adds no function, and what it finds. -/
theorem look {G : Emission → α → Emission → Prop} (hx : ∀ {s a t}, x p s = .ok (a, t) → s.Quiet p t ∧ G s a t)
    (hf : ∀ s a c, b.Later s → s.Later c → c.Consistent p → G s a c → Makes p c R (f a) Q) :
    Makes p b R (x >>= f) Q := by
  intro s r u h hb hr
  obtain ⟨a,t,h1,h2⟩ := bind_ok.mp h
  obtain ⟨q,hG⟩ := hx h1
  have hc := q.consistent hr.consistent
  obtain ⟨st,hQ⟩ := hf s a t hb q.toLater hc hG h2 (.refl t)
    ⟨fun v hv => q.frame ▸ hr.unbound v hv,hc,hr.storage.imp fun _ hs => hs.later q.toLater q.frame⟩
  exact ⟨Step.trans .left (.of_quiet q) st,hQ⟩

private theorem read {f : Program → Lower β} (h : Makes p b R (f p) Q) : Makes p b R (MonadReader.read >>= f) Q := h

private theorem typeOf {f : Ty → Lower β} (h : Makes p b R (f (p.exprs.typeOf id)) Q) :
    Makes p b R (Lower.typeOf id >>= f) Q := h

private theorem given {a : α} (h : Makes p b R (f a) Q) : Makes p b R (Pure.pure a >>= f) Q := h

private theorem discard {f : Instr → Lower β}
    (h : Makes p b R (f (discarded p keep id code)) Q) : Makes p b R (discardUnless keep id code >>= f) Q :=
  fun _ _ _ hx => h (discardUnless_bind_ok.mp hx)

end Makes

/-! ### Actions -/

private theorem functionIndex_makes {id : EntityId} (hc : p.Calls node id) :
    Makes p b (.node node) (functionIndex id) fun n E _ => E.funcs.lookup id = some n := by
  intro s n t h _ _
  obtain ⟨g,ha⟩ := functionIndex_ok h
  exact ⟨.of_asked g ha hc,fun E _ hE _ => hE.funcs _ _ ha.index⟩

private theorem bindVar_makes : Makes p b (.var v) (bindVar v) fun n _ L => L.vars.lookup v = some n := by
  intro s n t h _ hr
  obtain ⟨st,hv⟩ := bindVar_ok h (hr.unbound v rfl) hr.consistent
  exact ⟨st,fun _ L _ hL => hL.vars v n hv⟩

private theorem newLocal_makes {type : ValueType} (ht : type.isKnown b.module = true) :
    Makes p b .none (newLocal type) fun n _ L => L.slots[n]? = some type ∧ ∀ v, L.vars.lookup v ≠ some n := by
  intro s n t h hb hr
  obtain ⟨st,hslot⟩ := newLocal_ok h (hb.isKnown ht)
  exact ⟨st,fun _ L _ hL => hr.storage.elim fun params hs => hslot params hs L hL⟩

private theorem varLocal_makes :
    Makes p b .none (varLocal binding location) fun n _ L => ∃ v, binding = some v ∧ L.vars.lookup v = some n := by
  intro s n t h _ _
  obtain ⟨⟨v,hb,hv⟩,rfl⟩ := varLocal_ok.mp h
  exact ⟨.refl p s,fun _ L _ hL => ⟨v,hb,hL.vars v n hv⟩⟩

private theorem valueType_makes : Makes p b .none (valueType τ) fun result E _ =>
    result = E.stored? τ ∧ result.isSome = τ.hasValue :=
  .quiet fun h => by
    obtain ⟨q,rfl,hv⟩ := valueType_ok h
    exact ⟨q,fun E hE => ⟨(hE.stored?_eq hv).symm,hv⟩⟩

private theorem structIndex_found (h : structIndex object p s = .ok (n, t)) :
    s.Quiet p t ∧ t.structs.lookup object = some n := by
  obtain ⟨hn,rfl⟩ := structIndex_ok.mp h
  exact ⟨.refl p s,hn⟩

private theorem chainGlobal_found (h : chainGlobal object p s = .ok (n, t)) :
    s.Quiet p t ∧ t.chains.lookup object = some n := by
  obtain ⟨hn,rfl⟩ := chainGlobal_ok.mp h
  exact ⟨.refl p s,hn⟩

private theorem indexTests_ok {type : NumType} {arms : List Arm} {index : Nat} {codes : List Instr}
    (h : indexTests type index arms p s = .ok (codes, t)) :
    s = t ∧ ∃ literals, arms.map (·.pattern) = literals.map .literal ∧ codes = caseTests type index literals := by
  induction arms generalizing index codes s with
  | nil =>
    cases h
    exact ⟨rfl,[],rfl,rfl⟩
  | cons arm arms ih =>
    unfold indexTests at h
    cases hp : arm.pattern with
    | type _ => simp [hp] at h
    | literal l =>
      simp only [hp] at h
      obtain ⟨rest,h1,rfl⟩ := bind_pure_ok.mp h
      obtain ⟨rfl,literals,hl,rfl⟩ := ih h1
      exact ⟨rfl,l :: literals,by simp [hp,hl],rfl⟩

private theorem defineFunc_push {m : Module} {locals : List ValueType} {body : List Instr} :
    Module.defineFunc { m with funcs := m.funcs.push f } m.funcs.size locals body =
      { m with funcs := m.funcs.push { f with locals, body } } := by
  simp only [Module.defineFunc]
  congr 1
  ext i g
  · simp
  · grind

/-- A function of the module's own stays what it is. -/
private theorem helper_stays {E : Emission} (hE : t.Later E) (hc : s.Consistent p)
    (hf : t.funcs = s.funcs) (hm : t.module.funcs = s.module.funcs.push f) :
    E.module.funcs[s.module.funcs.size]? = some f := by
  refine hE.helpers _ _ (by simp [hm]) fun id hid => ?_
  obtain ⟨_,g,_,hg,_⟩ := hc.entry id _ (hf ▸ hid)
  simp at hg

private theorem step_of_push (h : s.Grows p t) (hfr : t.frame = s.frame) (hf : t.funcs = s.funcs)
    (hm : t.module.funcs = s.module.funcs.push f) (hh : t.Tester f ∨ ∃ x, R.nodes x ∧ p.Finder x f)
    (hc : ∀ ledger, s.Census p ledger → ∃ new, t.Census p (ledger ++ new) ∧ (new.map (·.1)).Nodup ∧
      ∀ x, x ∈ new.map (·.1) ↔ R.nodes x ∧ p.ValueMatch x) : s.Step p R t where
  grows := h
  frame := hfr ▸ .refl s.frame
  binds _ _ hv := .inl (hfr ▸ hv)
  storage _ hs := hs.later h.toLater hfr
  calls _ _ hg := .inl (hf ▸ hg)
  helpers n g hg := by
    rw [hm,Array.getElem?_push] at hg
    split at hg
    · cases hg
      exact .inr (.inr hh)
    · exact .inl hg
  census _ := hc

private theorem matchIndexFunction_makes {m : Match} {prim : Prim}
    (hs : (p.exprs.get node).shape = .select m) (hg : m.isTypeGuard = false)
    (hσ : p.exprs.typeOf m.operand = .prim prim) (hst : ∀ s : Emission, s.stored? (.prim prim) = some stored) :
    Makes p b (.node node) (matchIndexFunction prim stored m.arms location) fun n E _ => ∃ type literals f,
      prim.numType? = some type ∧ m.arms.map (·.pattern) = literals.map .literal ∧
      E.module.funcs[n]? = some f ∧ Finds type stored literals f := by
  intro s n t h _ hr
  unfold matchIndexFunction at h
  cases hp : prim.numType? with
  | none => simp [hp] at h
  | some type =>
    simp only [hp] at h
    obtain ⟨body,u,h1,h2⟩ := bind_ok.mp h
    obtain ⟨rfl,literals,hl,rfl⟩ := indexTests_ok h1
    have h4 := get_bind_ok.mp h2
    have h6 := modify_bind_ok.mp h4
    have h8 := modifyModule_bind_ok.mp h6
    obtain ⟨rfl,rfl⟩ := modifyModule_ok.mp h8
    have hfinds : Finds type stored literals
        { name := s!"__match_index_{s.matchIndexes}", params := [stored], result := some .i32,
          body := caseTests type 1 literals } := ⟨rfl,rfl,rfl,rfl,rfl⟩
    have hfinder : p.Finder node _ := ⟨m,prim,type,stored,literals,hs,hσ,hp,hst,hl,hfinds⟩
    simp only [Module.declareFunc,Module.addFunc,defineFunc_push]
    refine ⟨step_of_push (.of_push rfl rfl rfl rfl (Nat.le_refl _) rfl rfl rfl rfl rfl (.inl rfl)) rfl rfl rfl
      (.inr ⟨node,rfl,hfinder⟩) fun ledger hc => ⟨[(node, s.module.funcs.size)],?_,by simp,fun x => ?_⟩,
      fun E _ hE _ => ⟨type,literals,_,rfl,hl,helper_stays hE hr.consistent rfl rfl,hfinds⟩⟩
    · refine hc.push hc.keys (by simp) (by simp [← append_assoc]) fun x hx => ?_
      rcases mem_append.mp hx with hx | hx
      · obtain ⟨f,hf,hx⟩ := hc.finders x hx
        exact ⟨f,getElem?_push_of_some hf,hx⟩
      · cases mem_singleton.mp hx
        exact ⟨_,by simp,hfinder⟩
    · simp only [map_cons,map_nil,mem_singleton]
      exact ⟨fun hx => ⟨hx,m,hx ▸ hs,hg⟩,fun hx => hx.1⟩

private theorem extendsFunction_makes : Makes p b .none extendsFunction fun n E _ => ∃ ids out top,
    E.idsArray = some ids ∧ out ≠ top ∧ E.module.funcs[n]? = some (extendsFunc ids out top) := by
  intro s n t h _ hr
  have h2 := get_bind_ok.mp h
  cases he : s.extendsFunction with
  | some index =>
    simp only [he] at h2
    obtain ⟨rfl,rfl⟩ := pure_ok.mp h2
    obtain ⟨hno,ids,out,top,hi,hne,hf⟩ := hr.consistent.tester index he
    exact ⟨.refl p s,fun E _ hE _ => ⟨ids,out,top,hE.idsArray.trans hi,hne,hE.helpers _ _ hf hno⟩⟩
  | none =>
    simp only [he] at h2
    obtain ⟨ids,_,h3,h4⟩ := bind_ok.mp h2
    obtain ⟨hi,rfl⟩ := idsArray_ok.mp h3
    obtain ⟨out,u,h5,h6⟩ := bind_ok.mp h4
    obtain ⟨top,v,h7,h8⟩ := bind_ok.mp h6
    obtain ⟨q1,_,l1⟩ := freshLabel_ok h5
    obtain ⟨q2,l2,_⟩ := freshLabel_ok h7
    have q := q1.trans q2
    have hne : out ≠ top := by
      rintro rfl
      omega
    have h10 := modifyModule_bind_ok.mp h8
    have h12 := modifyModule_bind_ok.mp h10
    have h14 := modify_bind_ok.mp h12
    cases h14
    have hids : v.idsArray = some ids := q.idsArray.trans hi
    simp only [Module.declareFunc,Module.addFunc,defineFunc_push]
    refine ⟨Step.trans .left (.of_quiet q) (step_of_push (.of_push rfl rfl rfl rfl (Nat.le_refl _) rfl rfl rfl rfl rfl
      (.inr ⟨rfl,ids,out,top,hids,hne,rfl⟩)) rfl rfl rfl (.inl ⟨ids,out,top,hids,hne,rfl⟩)
      fun ledger hc => Census.idle (hc.push hc.keys (by simp) ?_ fun x hx => ?_) fun _ => False.elim),
      fun E _ hE _ => ⟨ids,out,top,hE.idsArray.trans hids,hne,
        helper_stays hE (q.consistent hr.consistent) rfl rfl⟩⟩
    · simp [q.tester,he]
    · exact (hc.finders x hx).imp fun f hf => ⟨getElem?_push_of_some hf.1,hf.2⟩

variable {cases : List Arm} {m : Match}

private theorem elementArray_ok (h : elementArray element location p s = .ok (n, t)) :
    s.Quiet p t ∧ ∃ τ, element = some τ ∧ ∀ E, t.Later E → E.stored? (.array τ) = some (.ref n) := by
  cases element with
  | none => simp [elementArray] at h
  | some τ =>
    obtain ⟨q,hn⟩ := arrayIndex_ok h
    exact ⟨q,τ,rfl,fun E hE => hE.stored? hn⟩

private theorem intrinsic_ok {op : Intrinsic} {args : List Instr}
    (h : intrinsic op element args location p s = .ok (code, t)) :
    s.Quiet p t ∧ ∀ E, t.Later E → OperationCode E element op args code := by
  unfold intrinsic at h
  split at h
  · cases h
    exact ⟨.refl p s,fun E _ => .binary _ _ _ _⟩
  · cases h
    exact ⟨.refl p s,fun E _ => .not _⟩
  · obtain ⟨n,h1,rfl⟩ := bind_pure_ok.mp h
    obtain ⟨q,τ,he,hn⟩ := elementArray_ok h1
    exact ⟨q,fun E hE => .newArray _ he (hn E hE)⟩
  · obtain ⟨n,h1,rfl⟩ := bind_pure_ok.mp h
    obtain ⟨q,τ,he,hn⟩ := elementArray_ok h1
    exact ⟨q,fun E hE => .arrayGet _ _ he (hn E hE)⟩
  · obtain ⟨n,h1,rfl⟩ := bind_pure_ok.mp h
    obtain ⟨q,τ,he,hn⟩ := elementArray_ok h1
    exact ⟨q,fun E hE => .arraySet _ _ _ he (hn E hE)⟩
  · cases h
    exact ⟨.refl p s,fun E _ => .arrayLen _⟩
  · simp at h

private theorem freshLabels_ok (h : freshLabels cases p s = .ok (labels, t)) :
    s.Quiet p t ∧ labels.length = cases.length ∧ labels.Nodup ∧ ∀ label ∈ labels, s.module.labels < label.index := by
  induction cases generalizing s labels with
  | nil =>
    obtain ⟨rfl,rfl⟩ := pure_ok.mp h
    exact ⟨.refl p s,rfl,nodup_nil,by simp⟩
  | cons case cases ih =>
    obtain ⟨label,u,h1,h2⟩ := bind_ok.mp h
    obtain ⟨rest,h3,rfl⟩ := bind_pure_ok.mp h2
    obtain ⟨q1,l1,l2⟩ := freshLabel_ok h1
    obtain ⟨q2,hlen,hnodup,hgt⟩ := ih h3
    refine ⟨q1.trans q2,by simp [hlen],nodup_cons.mpr ⟨fun hm => ?_,hnodup⟩,fun l hl => ?_⟩
    · have := hgt label hm
      omega
    · rcases mem_cons.mp hl with rfl | hl
      · exact l1
      · have := hgt l hl
        omega

/-! ### Parts -/

section Parts

variable {args ids bodies : List ExprId} {body test : ExprId} {given : List (String × ExprId)}
  {typeArgs : List TypeExpr} {n : String} {part : ExprId → Lower Instr}
  {rel : Emission → Layout → ExprId → Instr → Prop} (hp : p.VarsOk) (hx : Extracts p part rel)
  {result : Option ValueType} {vars : List EntityId} {exit : LabelId} {operand : Nat}

include hx

/-- The only part of a node, or the last one that is left. -/
private theorem part_makes (ht : p.exprs.Tiles lo [id] hi) :
    Makes p b (.span p lo hi []) (part id) fun code E L => rel E L id code := by
  obtain ⟨hc,rfl⟩ := tiles_only ht
  exact hx hc

include hp

private theorem parts_makes (ht : p.exprs.Tiles lo ids hi) :
    Makes p b (.span p lo hi []) (parts part ids) fun codes E L => List.Forall₂ (rel E L) ids codes := by
  induction ids generalizing b lo with
  | nil =>
    exact .fill (span_blank ht) (.pure fun _ _ _ => .nil)
  | cons id ids ih =>
    cases ht with
    | cons hc hn =>
      exact .bind (span_cut hp (Nat.le_succ_of_le hc.le) hn.le) (hx hc) fun _ _ _ =>
        .last (ih hn) fun _ _ _ _ hs h => .cons h hs

private theorem sequence_makes (ht : p.exprs.Tiles lo ids hi) :
    Makes p b (.span p lo hi []) (sequence part ids) fun codes E L => SequenceCode p (rel E L) ids codes := by
  induction ids generalizing b lo with
  | nil =>
    exact .fill (span_blank ht) (.pure fun _ _ _ => rfl)
  | cons id ids ih =>
    cases ht with
    | cons hc hn =>
      exact .bind (span_cut hp (Nat.le_succ_of_le hc.le) hn.le) (hx hc) fun code _ _ => .discard <|
        .last (ih hn) fun rest _ _ _ hs h => ⟨code,rest,h,hs,rfl⟩

private theorem call_makes {callee : EntityId} (ht : p.exprs.Tiles lo args node.index)
    (hs : (p.exprs.get node).shape = .call n args typeArgs (some (.function callee))) :
    Makes p b (.span p lo (node.index + 1) []) (call part callee args location) fun code E L =>
      NodeCode p E L (rel E L) τ (.call n args typeArgs (some (.function callee))) code := by
  have hsplit : (span p lo (node.index + 1) []).Splits p (span p lo node.index []) (.node node) :=
    span_own hp ht.le (fun _ hv => absurd hv not_mem_nil) (fun _ => id) (fun _ => False.elim) fun _ => rfl
  refine .bind hsplit (parts_makes hp hx ht) fun codes c _ => .read ?_
  cases hk : p.entities.function? callee with
  | none => exact .fail (by simp)
  | some d =>
    have hk' := EntityTable.function?_eq_some.mp hk
    cases hop : d.intrinsic? with
    | some op =>
      simp only [hop]
      refine .fill (.idle ?_) (.imp (.quiet intrinsic_ok) fun code E L h hcodes => .operation hk' hop hcodes h)
      rintro x rfl ⟨m,hm,_⟩
      rw [hs] at hm
      cases hm
    | none =>
      simp only [hop]
      exact .last (functionIndex_makes ⟨n,args,typeArgs,d,hs,hk',hop⟩) fun _ _ _ _ h hcodes => .call hk' hop hcodes h

/-! ### Objects -/

private def Initial (p : Program) (given : List (String × ExprId)) (fields : List Field) (x : ExprId) : Prop :=
  ∃ field ∈ fields, ∃ value lo, given.lookup field.name = some value ∧
    p.exprs.Tiles lo (p.exprs.get value).shape.children value.index ∧ lo ≤ x.index ∧ x.index ≤ value.index

/-- The initialisers are visited in the order of the layout, which need not be theirs. -/
private theorem fieldValues_makes {fields : List Field}
    (ht : p.exprs.Tiles lo (given.map (·.2)) hi) (hn : (fields.map (·.name)).Nodup) :
    Makes p b (.about p (Initial p given fields) []) (fieldValues part given location fields) fun codes E L =>
      List.Forall₂ (fun field code => ∃ value, given.lookup field.name = some value ∧ rel E L value code)
        fields codes := by
  induction fields generalizing b with
  | nil => exact .fill (.idle fun _ ⟨_,hf,_⟩ => absurd hf not_mem_nil) (.pure fun _ _ _ => .nil)
  | cons field fields ih =>
    simp only [map_cons,nodup_cons] at hn
    unfold fieldValues
    cases hl : given.lookup field.name with
    | none => exact .fail (by simp)
    | some value =>
      have hmem : value ∈ given.map (·.2) := mem_map_of_mem (mem_of_lookup hl)
      obtain ⟨start,_,_,hc⟩ := ht.mem hmem
      refine .bind (@about_splits p [] [] _ _ _ hp ?_ ?_ ?_ .nil fun _ _ _ hv => absurd hv not_mem_nil) (hx hc)
        fun code _ _ => .last (ih hn.2) fun rest _ _ _ hs h => .cons ⟨value,hl,h⟩ hs
      · rintro x (⟨h₁,h₂⟩ | ⟨other,ho,hx⟩)
        · exact ⟨field,.head _,value,start,hl,hc,h₁,Nat.le_of_lt_succ h₂⟩
        · exact ⟨other,.tail _ ho,hx⟩
      · rintro _ x ⟨other,ho,w,lo',hw,hcw,h₁,h₂⟩ _
        rcases mem_cons.mp ho with rfl | ho
        · cases hl.symm.trans hw
          cases tiles_start hc hcw
          exact .inl ⟨h₁,Nat.lt_succ_of_le h₂⟩
        · exact .inr ⟨other,ho,w,lo',hw,hcw,h₁,h₂⟩
      · rintro x ⟨h₁,h₂⟩ ⟨other,ho,w,lo',hw,hcw,h₃,h₄⟩
        have hne : value ≠ w := by
          rintro rfl
          rw [lookup_unique (tiles_nodup ht) hl hw] at hn
          exact hn.1 (mem_map_of_mem ho)
        have hmem' : w ∈ given.map (·.2) := mem_map_of_mem (mem_of_lookup hw)
        have := tiles_apart ht hmem hmem' hne hc hcw
        omega

omit hp hx in
/-- Whatever makes code below the literal of a new object is in an initialiser of a field. -/
private theorem initial_splits (hI : p.Inv)
    (hs : (p.exprs.get node).shape = .call n [literal] typeArgs (some (.construct object)))
    (hg : (p.exprs.get literal).shape = .object given) (hnode : literal.index + 1 = node.index)
    (ht : p.exprs.Tiles lo (given.map (·.2)) literal.index) :
    (span p lo (node.index + 1) []).Splits p (about p (Initial p given (p.layout object)) []) .none := by
  have hin : ∀ x, Initial p given (p.layout object) x → lo ≤ x.index ∧ x.index < node.index + 1 := by
    rintro x ⟨_,_,value,y,hl,hc,h₁,h₂⟩
    have hmem : value ∈ given.map (·.2) := mem_map_of_mem (mem_of_lookup hl)
    obtain ⟨z,h₃,h₄,hcz⟩ := ht.mem hmem
    cases tiles_start hc hcz
    omega
  refine ⟨fun x hx => hin x (hx.resolve_right id),?_,fun htyped x hx hm => .inl ?_,fun _ _ => id,fun _ _ => id⟩
  · rintro v ((⟨x,hx,hv⟩ | hv) | hv)
    · exact .inl ⟨x,hin x hx,hv⟩
    · exact .inr hv
    · exact hv.elim
  · have hsel : ∀ y shape, (p.exprs.get y).shape = shape → (∀ m, shape ≠ .select m) → x.index ≠ y.index := by
      intro y shape hy hno he
      obtain ⟨m,hm,_⟩ := hm
      rw [show x = y from congrArg ExprId.mk he] at hm
      exact hno m (hy.symm.trans hm)
    have h₁ := hsel node _ hs (by simp)
    have h₂ := hsel literal _ hg (by simp)
    obtain ⟨h₃,h₄⟩ := hx
    obtain ⟨value,hv,y,hc,h₅,h₆⟩ := Program.Inv.tiles_locate ht h₃ (by omega)
    obtain ⟨⟨name,_⟩,hmem,rfl⟩ := mem_map.mp hv
    obtain ⟨τ,hτ⟩ := htyped node ⟨by have := ht.le; omega,Nat.lt_succ_self _⟩
    have hcall := (hI.nodes node τ hτ).1
    rw [hs] at hcall
    cases hcall with
    | call hcall =>
      obtain ⟨field,hf,hl⟩ := hI.initialised hcall hg hmem
      exact ⟨field,hf,_,y,hl,hc,h₅,h₆⟩

private theorem newObject_makes (hI : p.Inv) (ht : p.exprs.Tiles lo [literal] node.index)
    (hs : (p.exprs.get node).shape = .call n [literal] typeArgs (some (.construct object))) :
    Makes p b (.span p lo (node.index + 1) []) (newObject part object literal location) fun code E L =>
      NodeCode p E L (rel E L) τ (.call n [literal] typeArgs (some (.construct object))) code := by
  obtain ⟨hc,hnode⟩ := tiles_only ht
  refine .read ?_
  cases hg : (p.exprs.get literal).shape with
  | object given =>
    rw [hg] at hc
    have hnames : ((p.layout object).map (·.name)).Nodup := by
      unfold Program.layout
      cases ho : p.entities.object? object with
      | none => exact nodup_nil
      | some d => exact (hI.objectOk (EntityTable.object?_eq_some.mp ho)).names
    exact .read (.look chainGlobal_found fun _ chain _ _ _ _ hchain =>
      .bind .right (.fill (initial_splits hI hs hg hnode hc) (fieldValues_makes hp hx hc hnames)) fun codes _ h₁ =>
      .look structIndex_found fun _ struct _ h₂ h₃ _ hstruct => .pure fun E L hE hcodes =>
        .construct hg ((h₁.trans (h₂.trans (h₃.trans hE))).chains ▸ hchain) (hE.structs ▸ hstruct) hcodes)
  | _ => exact .fail (by simp)

private theorem target_makes (hI : p.Inv) {meaning : Option CallTarget}
    (ht : p.exprs.Tiles lo args node.index) (hs : (p.exprs.get node).shape = .call n args typeArgs meaning) :
    Makes p b (.span p lo (node.index + 1) []) (target part location args meaning) fun code E L =>
      NodeCode p E L (rel E L) τ (.call n args typeArgs meaning) code := by
  unfold target
  split
  · exact call_makes hp hx ht hs
  · split
    · exact newObject_makes hp hx hI ht hs
    · exact .fail (by simp)
  · split
    · exact .fill (span_inner hp ht.le (by simp [hs])) (.bind .right (part_makes hx ht) fun value _ _ =>
        .look structIndex_found fun _ struct _ _ _ _ hstruct => .pure fun E L hE hv => .field hv (hE.structs ▸ hstruct))
    · exact .fail (by simp)
  · exact .fail (by simp)

/-! ### Branches and loops -/

private theorem cond_makes {yes : ExprId} {no : Option ExprId} (ht : p.exprs.Tiles lo (test :: yes :: no.toList) hi) :
    Makes p b (.span p lo hi []) (cond part τ test yes no) fun code E L =>
      NodeCode p E L (rel E L) τ (.cond test yes no) code := by
  cases ht with
  | cons ht1 hn1 =>
    cases hn1 with
    | cons ht2 hn2 =>
      refine .bind (span_cut hp (Nat.le_succ_of_le ht1.le) (Nat.le_trans (Nat.le_succ_of_le ht2.le) hn2.le)) (hx ht1)
        fun tc _ _ => .bind .left valueType_makes fun result _ _ =>
        .bind (span_cut hp (Nat.le_succ_of_le ht2.le) hn2.le) (hx ht2) fun yc _ _ => .discard ?_
      cases no with
      | none => exact .given (.fill (span_blank hn2) (.pure fun E L _ hy hr ht => .cond ht hy hr.1 hr.2 .nil))
      | some no =>
        exact .bind .right (part_makes hx hn2) fun nc _ _ => .discard (.given (.pure fun E L _ hn hy hr ht =>
          .cond ht hy hr.1 hr.2 (.cons ⟨nc,hn,rfl⟩ .nil)))

private theorem loop_makes (ht : p.exprs.Tiles lo [test,body] hi) :
    Makes p b (.span p lo hi []) (loop part test body) fun code E L =>
      NodeCode p E L (rel E L) τ (.loop test body) code := by
  cases ht with
  | cons ht1 hn1 =>
    refine .look freshLabel_ok fun _ exit c₁ _ _ _ l₁ => .look freshLabel_ok fun s₂ top _ h₂ _ _ l₂ =>
      .bind (span_cut hp (Nat.le_succ_of_le ht1.le) hn1.le) (hx ht1) fun tc _ _ =>
      .bind .right (part_makes hx hn1) fun bc _ _ => .discard (.pure fun E L _ hb ht => .loop ht hb ?_)
    rintro rfl
    have := h₂.labels
    omega

/-! ### Matches -/

/-- Arms of a match, or what is left of them: their bodies fill the places from `lo` up to and excluding `hi`. -/
private structure Arms (p : Program) (node : ExprId) (lo hi : Nat) (bodies : List ExprId) (vars : List EntityId) :
    Prop where
  tiles : p.exprs.Tiles lo bodies hi
  below : hi ≤ node.index
  owned : ∀ v ∈ vars, v ∈ (p.exprs.get node).shape.intros
  nodup : vars.Nodup

omit hx

private theorem Arms.outside (h : Arms p node lo hi bodies vars) (hx : x.index < hi)
    (hv : v ∈ vars) : v ∉ (p.exprs.get x).shape.intros := by
  intro hw
  cases hp.intro_unique x node v hw (h.owned v hv)
  have := h.below
  omega

private theorem Arms.split {bodies' : List ExprId} {vars' : List EntityId}
    (h : Arms p node lo hi (bodies ++ bodies') (vars ++ vars')) : ∃ mid, Arms p node lo mid bodies vars ∧
      Arms p node mid hi bodies' vars' ∧
      (span p lo hi (vars ++ vars')).Splits p (span p lo mid vars) (span p mid hi vars') := by
  obtain ⟨mid,h₁,h₂⟩ := h.tiles.split
  obtain ⟨n₁,n₂,_⟩ := nodup_append.mp h.nodup
  exact ⟨mid,⟨h₁,Nat.le_trans h₂.le h.below,fun v hv => h.owned v (mem_append_left _ hv),n₁⟩,
    ⟨h₂,h.below,fun v hv => h.owned v (mem_append_right _ hv),n₂⟩,
    span_splits hp h₁.le h₂.le h.nodup fun x hx v hv => h.outside hp hx.2 hv⟩

private theorem Arms.cons {case : Arm} (h : Arms p node lo hi ((case :: cases).map (·.body))
      ((case :: cases).filterMap (·.binding))) : ∃ mid, Arms p node lo mid [case.body] case.binding.toList ∧
      Arms p node mid hi (cases.map (·.body)) (cases.filterMap (·.binding)) ∧
      (span p lo hi ((case :: cases).filterMap (·.binding))).Splits p (span p lo mid case.binding.toList)
        (span p mid hi (cases.filterMap (·.binding))) := by
  have hv : (case :: cases).filterMap (·.binding) = case.binding.toList ++ cases.filterMap (·.binding) := by
    cases hb : case.binding <;> simp [hb]
  rw [hv] at h ⊢
  exact Arms.split hp (show Arms p node lo hi ([case.body] ++ cases.map (·.body)) _ from h)

include hx

private theorem arm_makes {value : Instr} (h : Arms p node lo hi [body] binding.toList) :
    Makes p b (.span p lo hi binding.toList) (arm part binding value body keep) fun code E L =>
      ArmCode p L (rel E L) keep value binding body code := by
  cases binding with
  | none =>
    exact .given (.bind .right (part_makes hx h.tiles) fun inner _ _ => .discard (.pure fun _ _ _ hb =>
      ⟨[],inner,rfl,hb,rfl⟩))
  | some v =>
    exact .bind (span_var fun _ hy => h.outside hp hy.2 (.head _)) bindVar_makes fun slot _ _ =>
      .given (.bind .right (part_makes hx h.tiles) fun inner _ _ => .discard (.pure fun _ _ _ hb hv =>
        ⟨[.localSet slot value],inner,⟨slot,hv,rfl⟩,hb,rfl⟩))

private theorem defaultArm_makes (h : Arms p node lo hi m.default.toList m.defaultBinding.toList) :
    Makes p b (.span p lo hi m.defaultBinding.toList) (defaultArm part m operand result) fun code E L =>
      DefaultCode p L (rel E L) result.isSome operand m code := by
  unfold defaultArm DefaultCode
  cases hd : m.default with
  | none =>
    rw [hd] at h
    exact .fill (span_blank h.tiles) (.pure fun _ _ _ => rfl)
  | some body =>
    rw [hd] at h
    exact arm_makes hp hx h

private theorem typeCases_makes {tester base : Nat}
    (h : Arms p node lo hi (cases.map (·.body)) (cases.filterMap (·.binding))) :
    Makes p b (.span p lo hi (cases.filterMap (·.binding)))
      (typeCases part tester base operand exit result cases) fun codes E L =>
      List.Forall₂ (TypeCaseCode p E L (rel E L) tester base operand exit result) cases codes := by
  induction cases generalizing b lo with
  | nil => exact .fill (span_blank h.tiles) (.pure fun _ _ _ => .nil)
  | cons case cases ih =>
    obtain ⟨mid,h₁,h₂,hs⟩ := h.cons hp
    have hcase : Makes p b (.span p lo mid case.binding.toList) (typeCase part tester base operand exit result case)
        fun code E L => TypeCaseCode p E L (rel E L) tester base operand exit result case code := by
      unfold typeCase
      split
      · rename_i object hpt
        exact .look structIndex_found fun _ struct _ _ _ _ hstruct => .last (arm_makes hp hx h₁) fun body E L hE hb =>
          ⟨object,struct,body,hpt,hE.structs ▸ hstruct,hb,rfl⟩
      · exact .fail (by simp)
    exact .bind hs hcase fun _ _ _ => .last (ih h₂) fun _ _ _ _ hrest hc => .cons hc hrest

private theorem nestArms_makes {inner : List Instr} (hl : labels.length = cases.length)
    (h : Arms p node lo hi (cases.map (·.body)) (cases.filterMap (·.binding))) :
    Makes p b (.span p lo hi (cases.filterMap (·.binding)))
      (nestArms part operand exit result inner (cases.zip labels)) fun codes E L =>
      ∃ arms, codes = nest exit result inner (labels.zip arms) ∧ List.Forall₂ (fun case : Arm =>
        ArmCode p L (rel E L) result.isSome (.localGet operand) case.binding case.body) cases arms := by
  induction cases generalizing b lo inner labels with
  | nil => exact .fill (span_blank h.tiles) (.pure fun _ _ _ => ⟨[],by simp [nest],.nil⟩)
  | cons case cases ih =>
    cases labels with
    | nil => simp at hl
    | cons label labels =>
      obtain ⟨mid,h₁,h₂,hs⟩ := h.cons hp
      refine .bind hs (arm_makes hp hx h₁) fun code _ _ => .imp (ih (by simpa using hl) h₂) ?_
      rintro _ E L ⟨arms,rfl,harms⟩ hc
      exact ⟨code :: arms,rfl,.cons hc harms⟩

private theorem typeDispatch_makes (hm : m.isTypeGuard = true)
    (h : Arms p node lo hi (m.arms.map (·.body) ++ m.default.toList)
      (m.arms.filterMap (·.binding) ++ m.defaultBinding.toList)) :
    Makes p b (.span p lo hi (m.arms.filterMap (·.binding) ++ m.defaultBinding.toList))
      (typeDispatch part m operand exit result) fun code E L =>
      DispatchCode p E L (rel E L) m stored operand exit result code := by
  obtain ⟨mid,h₁,h₂,hs⟩ := h.split hp
  refine .bind .left extendsFunction_makes fun tester _ _ => .look structIndex_found fun _ base _ _ _ _ hbase =>
    .bind hs (typeCases_makes hp hx h₁) fun cases _ hc => .last (defaultArm_makes hp hx h₂) ?_
  rintro default E L hE hd hcases ⟨ids,out,top,hids,hne,hf⟩
  exact .types hm hids hne hf ((hc.trans hE).structs ▸ hbase) hcases hd

private theorem literalDispatch_makes (hm : m.isTypeGuard = false)
    (hs : (p.exprs.get node).shape = .select m) (hexit : exit.index ≤ b.module.labels)
    (hst : ∀ prim, p.exprs.typeOf m.operand = .prim prim → ∀ s : Emission, s.stored? (.prim prim) = some stored)
    (h : Arms p node lo hi (m.arms.map (·.body) ++ m.default.toList)
      (m.arms.filterMap (·.binding) ++ m.defaultBinding.toList))
    (hR : R.Splits p (.node node) (.span p lo hi (m.arms.filterMap (·.binding) ++ m.defaultBinding.toList))) :
    Makes p b R (literalDispatch part m stored operand exit result location) fun code E L =>
      DispatchCode p E L (rel E L) m stored operand exit result code := by
  obtain ⟨mid,h₁,h₂,hsplit⟩ := h.split hp
  refine .typeOf ?_
  cases hσ : p.exprs.typeOf m.operand with
  | prim prim =>
    refine .bind hR (matchIndexFunction_makes hs hm hσ (hst prim hσ)) fun finder c₁ hc₁ =>
      .look freshLabel_ok fun s₂ fallback c₂ hs₂ hc₂ _ l₂ => .look freshLabels_ok fun s₃ labels _ hs₃ _ _ l₃ =>
      .bind hsplit (nestArms_makes hp hx l₃.1 h₁) fun inner _ _ => .last (defaultArm_makes hp hx h₂) ?_
    rintro default E L _ hd ⟨arms,rfl,harms⟩ ⟨type,literals,f,htype,hlit,hf,hfinds⟩
    refine .values hm hσ htype hlit hf hfinds (nodup_cons.mpr ⟨fun he => ?_,
      nodup_cons.mpr ⟨fun he => ?_,l₃.2.1⟩⟩) l₃.1 harms hd
    all_goals
      have := hc₁.labels
      have := hs₂.labels
      have := hs₃.labels
    · rcases mem_cons.mp he with rfl | he
      · omega
      · have := l₃.2.2 exit he
        omega
    · have := l₃.2.2 fallback he
      omega
  | _ => exact .fail (by simp)

private theorem select_makes (hs : (p.exprs.get node).shape = .select m)
    (ht : p.exprs.Tiles lo (ExprShape.select m).children node.index) :
    Makes p b (.span p lo (node.index + 1) []) (select part m τ location) fun code E L =>
      NodeCode p E L (rel E L) τ (.select m) code := by
  cases ht with
  | cons hc hn =>
    have hintros : (p.exprs.get node).shape.intros = m.arms.filterMap (·.binding) ++ m.defaultBinding.toList := by
      rw [hs]
      rfl
    have harms : Arms p node (m.operand.index + 1) node.index (m.arms.map (·.body) ++ m.default.toList)
        (m.arms.filterMap (·.binding) ++ m.defaultBinding.toList) :=
      ⟨hn,Nat.le_refl _,fun v hv => hintros ▸ hv,hintros ▸ hp.intro_nodup node⟩
    refine .typeOf (.look valueType_ok fun _ type c₁ _ _ hc₁ htype => ?_)
    cases type with
    | none => exact .fail (by simp)
    | some stored =>
      refine .bind (span_cut hp (Nat.le_succ_of_le hc.le) (Nat.le_succ_of_le hn.le)) (hx hc) fun value _ h₂ =>
        .bind .left (newLocal_makes (h₂.isKnown (hc₁.stored?_known htype.1.symm))) fun operand _ h₃ =>
        .bind .left valueType_makes fun result _ h₄ => .look freshLabel_ok fun _ exit c₅ h₅ h₆ _ l₅ => ?_
      have hstored : ∀ E, c₅.Later E → E.stored? (p.exprs.typeOf m.operand) = some stored := fun E hE =>
        (h₂.trans (h₃.trans (h₄.trans (h₅.trans (h₆.trans hE))))).stored? htype.1.symm
      cases hg : m.isTypeGuard with
      | true =>
        refine .last (.fill ?_ (typeDispatch_makes hp hx hg harms)) fun _ E L hE hd hr hslot hv =>
          .select (hstored E hE) hv hslot.1 hslot.2 hr.1 hr.2 hd
        refine span_own hp hn.le harms.owned (fun _ => False.elim) (fun _ => False.elim) ?_
        rintro ⟨m',hm',hg'⟩
        cases hs.symm.trans hm'
        rw [hg] at hg'
        cases hg'
      | false =>
        refine .last (literalDispatch_makes hp hx hg hs l₅.2 (fun prim hσ s => ?_) harms (.symm ?_))
          fun _ E L hE hd hr hslot hv => .select (hstored E hE) hv hslot.1 hslot.2 hr.1 hr.2 hd
        · have := htype.1
          rw [hσ] at this
          cases prim <;> exact this.symm
        · exact span_own hp hn.le harms.owned (fun _ => id) (fun _ => False.elim) fun _ => rfl

/-- The code made for a node stands for it, if that is so for its parts. -/
private theorem node_makes (hI : p.Inv) : Extracts p (Lower.node part) fun E L id code =>
    NodeCode p E L (rel E L) (p.exprs.typeOf id) (p.exprs.get id).shape code := by
  intro b lo id ht
  refine .read ?_
  dsimp only
  have inner : (∀ m, (p.exprs.get id).shape ≠ .select m) →
      (span p lo (id.index + 1) []).Splits p (span p lo id.index []) .none := span_inner hp ht.le
  cases hs : (p.exprs.get id).shape with
  | literal l =>
    rw [hs] at ht inner
    exact .fill (inner (by simp)) (.fill (span_blank ht) (.pure fun _ _ _ => .literal l))
  | name n binding =>
    rw [hs] at ht inner
    refine .fill (inner (by simp)) (.fill (span_blank ht) (.last varLocal_makes ?_))
    rintro slot E L _ ⟨v,rfl,hv⟩
    exact .name hv
  | block body scope =>
    rw [hs] at ht inner
    exact .fill (inner (by simp)) (.last (sequence_makes hp hx ht) fun _ _ _ _ h => .block h)
  | define n declared init mutable entity =>
    rw [hs] at ht
    cases entity with
    | none => exact .fail (by simp [bind_ok])
    | some v =>
      refine .bind (span_own hp ht.le (fun _ hv => absurd hv not_mem_nil) (fun _ => False.elim) (fun w hw => ?_) ?_)
        (part_makes hx ht) fun value _ _ => .last bindVar_makes fun _ _ _ _ hv h => .define h hv
      · cases hw
        exact ⟨by simp [hs,ExprShape.intros],not_mem_nil⟩
      · rintro ⟨m,hm,_⟩
        rw [hs] at hm
        cases hm
  | assign n init binding =>
    rw [hs] at ht inner
    refine .fill (inner (by simp)) (.bind .left varLocal_makes fun slot _ _ => .last (part_makes hx ht) ?_)
    rintro value E L _ h ⟨v,rfl,hv⟩
    exact .assign h hv
  | call n args typeArgs meaning =>
    rw [hs] at ht
    exact target_makes hp hx hI ht hs
  | object fields => exact .fail (by simp)
  | cond test yes no =>
    rw [hs] at ht inner
    exact .fill (inner (by simp)) (.typeOf (cond_makes hp hx ht))
  | loop test body =>
    rw [hs] at ht inner
    exact .fill (inner (by simp)) (loop_makes hp hx ht)
  | select m =>
    rw [hs] at ht
    exact .typeOf (select_makes hp hx hs ht)

end Parts

/-- The code made for a node stands for it. -/
theorem exprWithin_makes (hI : p.Inv) (depth : Nat) :
    Extracts p (exprWithin depth) fun E L => CodeWithin p E L depth := by
  induction depth with
  | zero => exact fun b lo id _ => .fail (by simp [exprWithin,bind_ok])
  | succ depth ih => exact node_makes hI.vars ih hI

end Lower

end FormCompiler
