import FormCompiler.Proofs.Resolution.Scanning

/-! Layouts of objects are consistent at every moment of resolution. -/

namespace FormCompiler

open Check EntityTable Solver

variable {lo : Option Nat} {e d : ObjectDef} {G : EntityId → Prop} {p q : Program} {id : EntityId}

/-! ### Objects while a program is being resolved -/

structure ObjectDef.Consistent (t : EntityTable) (id : EntityId) (d : ObjectDef) : Prop where
  plain : d.isGeneric = false
  base : d.parent = none → id = Program.objectId
  inherited : ∀ above, d.parent = some above → ∃ e, t.kind above = .object e ∧ e.stage = .done ∧ e.fields <+: d.fields
  layout : LayoutOk d.fields

namespace Program

def Generic (p : Program) (id : EntityId) : Prop := ∃ d, p.entities.kind id = .object d ∧ d.isGeneric = true

/-- Types name no generic object, so a parent is never generic, and finished objects have consistent layouts. -/
structure Regular (G : EntityId → Prop) (p : Program) : Prop where
  avoids : p.Avoids G
  generic : ∀ id, G id ↔ p.Generic id
  layouts : ∀ id d, p.entities.kind id = .object d → d.stage = .done → d.Consistent p.entities id
  founded : p.entities.Founded

namespace Regular

/-- A change of entities that leaves finished objects as they are. -/
theorem of_entities (h : p.Regular G) {t : EntityTable} (ha : Avoids G { p with entities := t })
    (hold : ∀ id d, p.entities.kind id = .object d → ∃ e, t.kind id = .object e ∧ e.isGeneric = d.isGeneric ∧
      (d.stage = .done → e.stage = .done ∧ e.parent = d.parent ∧ e.fields = d.fields))
    (hnew : ∀ id, t.kind id = p.entities.kind id ∨ ∀ d, t.kind id = .object d → (d.isGeneric = true → G id) ∧
      (d.stage = .done → d.Consistent p.entities id) ∧
      ∀ above, d.parent = some above → ∃ l, p.entities.Chain above l) :
    Regular G { p with entities := t } := by
  have chain : ∀ {id l}, p.entities.Chain id l → t.Chain id l := by
    intro id l hc
    induction hc with
    | base hk hd hp =>
      obtain ⟨e,he,_,hdone⟩ := hold _ _ hk
      exact .base he (hdone hd).1 ((hdone hd).2.1.trans hp)
    | step hk hd hp _ ih =>
      obtain ⟨e,he,_,hdone⟩ := hold _ _ hk
      exact .step he (hdone hd).1 ((hdone hd).2.1.trans hp) ih
  have consistent : ∀ {id} {d : ObjectDef}, d.Consistent p.entities id → d.Consistent t id := by
    intro id d hc
    refine ⟨hc.plain,hc.base,fun above ha => ?_,hc.layout⟩
    obtain ⟨e,he,hs,hf⟩ := hc.inherited above ha
    obtain ⟨e',he',_,hdone⟩ := hold _ _ he
    exact ⟨e',he',(hdone hs).1,(hdone hs).2.2 ▸ hf⟩
  refine ⟨ha,fun id => ⟨fun hG => ?_,fun ⟨d,hk,hg⟩ => ?_⟩,fun id d hk hs => ?_,fun id d above hk hp => ?_⟩
  · obtain ⟨d,hd,hg⟩ := (h.generic id).mp hG
    obtain ⟨e,he,hge,_⟩ := hold id d hd
    exact ⟨e,he,hge.trans hg⟩
  · rcases hnew id with he | hd
    · exact (h.generic id).mpr ⟨d,he ▸ hk,hg⟩
    · exact (hd d hk).1 hg
  · rcases hnew id with he | hd
    · exact consistent (h.layouts id d (he ▸ hk) hs)
    · exact consistent ((hd d hk).2.1 hs)
  · rcases hnew id with he | hd
    · obtain ⟨l,hl⟩ := h.founded id d above (he ▸ hk) hp
      exact ⟨l,chain hl⟩
    · obtain ⟨l,hl⟩ := (hd d hk).2.2 above hp
      exact ⟨l,chain hl⟩

/-- A change of an entity that is no object. -/
theorem modifyOther (h : p.Regular G) {f : EntityKind → EntityKind}
    (ha : Avoids G { p with entities := p.entities.modifyKind id f })
    (hk : ∀ d, p.entities.kind id ≠ .object d) (hf : ∀ d, f (p.entities.kind id) ≠ .object d) :
    Regular G { p with entities := p.entities.modifyKind id f } := by
  refine h.of_entities ha (fun j d hd => ?_) fun j => ?_
  · have hj : j ≠ id := by
      rintro rfl
      exact hk d hd
    exact ⟨d,(kind_modifyKind_ne hj f).trans hd,rfl,fun hs => ⟨hs,rfl,rfl⟩⟩
  · rcases p.entities.kind_modifyKind_cases id f j with he | ⟨rfl,he⟩
    · exact .inl he
    · exact .inr fun d hd => absurd (he.symm.trans hd) (hf d)

end Regular

/-- What an object's next state means for its layout. -/
theorem Regular.turns (h : p.Regular G) (hk : p.entities.kind id = .object d) (ht : d.Turns G p e) :
    e.isGeneric = d.isGeneric ∧ (d.stage = .done → e.stage = .done ∧ e.parent = d.parent ∧ e.fields = d.fields) ∧
      (e.stage = .done → e.Consistent p.entities id) ∧
      ∀ above, e.parent = some above → ∃ l, p.entities.Chain above l := by
  cases ht with
  | start hs => exact ⟨rfl,fun hd => absurd (hs.symm.trans hd) (by simp),nofun,fun above => h.founded id d above hk⟩
  | @parent above c hs _ habove _ hc hdone =>
    refine ⟨rfl,fun hd => absurd (hs.symm.trans hd) (by simp),fun hd => absurd (hs.symm.trans hd) (by simp),?_⟩
    rintro _ ⟨⟩
    rcases hdone with hdone | hg
    · exact h.founded.chain hc hdone
    · exact absurd ((h.generic above).mpr ⟨c,hc,hg⟩) habove
  | @finish above c fields hs hplain hparent hc _ hlayout =>
    refine ⟨rfl,fun hd => absurd (hs.symm.trans hd) (by simp),fun _ => ?_,fun above => h.founded id d above hk⟩
    have hg : c.isGeneric = false := by
      rw [Bool.eq_false_iff]
      intro hg
      exact h.avoids.parent id d above hk hparent ((h.generic above).mpr ⟨c,hc,hg⟩)
    obtain ⟨hdone, hprefix,hok⟩ := hlayout hg
    refine ⟨hplain,fun hp => ?_,fun above' hp => ?_,hok (h.layouts above c hc hdone).layout⟩
    · cases hparent.symm.trans hp
    · cases hparent.symm.trans hp
      exact ⟨c,hc,hdone, hprefix⟩
  | keep | addMethods =>
    refine ⟨rfl,fun hd => ⟨hd,rfl,rfl⟩,fun hd => ?_,fun above => h.founded id d above hk⟩
    have hc := h.layouts id d hk hd
    exact ⟨hc.plain,hc.base,hc.inherited,hc.layout⟩

private theorem Alters.regular (hc : Alters G lo p q) (h : p.Regular G) : q.Regular G := by
  have ha := hc.avoids h.avoids
  cases hc with
  | tables he => exact ⟨ha,by unfold Generic; rw [he]; exact h.generic,he ▸ h.layouts,he ▸ h.founded⟩
  | ancestors | nodes | scopes => exact ⟨ha,h.generic,h.layouts,h.founded⟩
  | @alloc _ _ k name location _ ho _ =>
    refine h.of_entities ha (fun id d hd => ⟨d,?_,rfl,fun hs => ⟨hs,rfl,rfl⟩⟩) fun id => ?_
    · rwa [kind_alloc_of_lt (lt_size_of_kind (by simp [hd]))]
    · rcases p.entities.kind_alloc_cases name location k id with he | ⟨_,he⟩
      · exact .inl he
      · refine .inr fun d hd => ?_
        obtain ⟨_,_,_,_,_,rfl⟩ := ho d (he.symm.trans hd)
        exact ⟨by simp [ObjectDef.isGeneric,objectInstance],by simp [objectInstance],by simp [objectInstance]⟩
  | @object _ _ id d f hk ht =>
    obtain ⟨hg,hdone,hcon,hpar⟩ := h.turns hk ht
    refine h.of_entities ha (fun j e he => ?_) fun j => ?_
    · rcases kind_modifyObject_cases hk f j with hj | ⟨rfl,hj⟩
      · exact ⟨e,hj.trans he,rfl,fun hs => ⟨hs,rfl,rfl⟩⟩
      · cases hk.symm.trans he
        exact ⟨f d,hj,hg,hdone⟩
    · rcases kind_modifyObject_cases hk f j with hj | ⟨rfl,hj⟩
      · exact .inl hj
      · refine .inr fun e he => ?_
        cases hj.symm.trans he
        exact ⟨fun hge => (h.generic j).mpr ⟨d,hk,hg ▸ hge⟩,hcon,hpar⟩
  | typeAlias hk | function hk => exact h.modifyOther ha (by simp [hk]) (by simp [hk])

end Program

/-! ### Every moment of resolution -/

/-- A moment from the resolution of a program on: a question begins or ends there, or resolution is refused or done.
Afterwards it may be resolved again, and there may be further questions, also about types that no generic object is
taken for. -/
inductive Program.Moment : Program → Prop
  | read {p : Program} : p.Scanned → Moment p
  | resolve {p q : Program} {stop : Program → Bool} : Moment p →
      (watched stop p.budget).resolveDeclarations.EndsIn p q → Moment q
  | typeOf {p q : Program} {stop : Program → Bool} {n : Nat} {scope : ScopeId} {t : TypeExpr} : Moment p →
      t.Avoids p.Generic → ((watched stop n).resolveType scope t).EndsIn p q → Moment q
  | instantiate {p q : Program} {stop : Program → Bool} {n : Nat} {generic : EntityId} {args : List Ty}
      {location : Location} : Moment p → (∀ τ ∈ args, τ.Avoids p.Generic) →
      ((watched stop n).instantiate generic args location).EndsIn p q → Moment q

private theorem Program.Moment.of_resolveProgram {q : Program} (hp : p.Moment) (h : resolveProgram.EndsIn p q) :
    q.Moment := by
  refine .resolve hp (?_ : (watched (fun _ => false) p.budget).resolveDeclarations.EndsIn p q)
  unfold Check.EndsIn at h ⊢
  rw [watched_never,← Program.solver,← resolveProgram_eq]
  exact h

/-! ### Before resolution -/

private theorem Ty.Good.avoids {τ : Ty} (h : τ.Good p.entities) : τ.Avoids p.Generic := by
  induction τ with
  | prim _ => exact trivial
  | object id =>
    obtain ⟨d,hk,ht⟩ := h
    rintro ⟨e,he,hg⟩
    cases hk.symm.trans he
    simp [ObjectDef.isGeneric,ht] at hg
  | array element ih => exact ih h
  | never => exact h.elim

private theorem TypeExpr.Good.avoids {t : TypeExpr} (h : t.Good p.entities) : t.Avoids p.Generic := by
  induction h with
  | named => exact .named
  | apply _ ih => exact .apply ih
  | resolved h => exact .resolved h.avoids

namespace Program

private theorem Scanned.regular (hp : p.Scanned) : p.Regular p.Generic where
  avoids := by
    refine ⟨?_,?_,fun id => ?_,fun n t ht => (((hp.fresh.nodes n).raw p.entities).good t ht).avoids,?_⟩
    · obtain ⟨d,hk,_,ht⟩ := hp.hasBase
      rintro ⟨e,he,hg⟩
      cases hk.symm.trans he
      simp [ObjectDef.isGeneric,ht] at hg
    · rintro id ⟨d,hk,_⟩
      exact lt_size_of_kind (by simp [hk])
    · have h := hp.fresh.entities id
      cases hk : p.entities.kind id <;> rw [hk] at h
      case object d =>
        obtain ⟨h1,h2,h3,h4⟩ := h.blank
        refine ⟨?_,fun t ht => (h.parentExpr t ht _).avoids,
          fun field hf => (h.fieldExprs field hf _).avoids,by simp [h1],by simp [h2],by simp [h3],by simp [h4]⟩
        rintro hplain ⟨e,he,hg⟩
        cases hk.symm.trans he
        simp [hplain] at hg
      case function d =>
        exact ⟨fun param hm => (h.params param hm _).avoids,fun t ht => (h.returnExpr t ht _).avoids,by simp [h.blank.1]⟩
      case typeAlias d => exact ⟨(h.target _).avoids,by simp [h.stage]⟩
      case var => exact h.elim
      all_goals exact trivial
    · intro id l hl
      simp [hp.fresh.ancestry] at hl
  generic _ := Iff.rfl
  layouts id d hk hs := by
    have h := hp.fresh.object hk
    obtain ⟨_,h2,h3,_⟩ := h.blank
    rcases h.stage with hstage | ⟨_,hid,ht⟩
    · cases hs.symm.trans hstage
    · exact ⟨by simp [ObjectDef.isGeneric,ht],fun _ => hid,by simp [h2],by simp [h3],by simp [h3]⟩
  founded id d above hk ha := by simp [(hp.fresh.object hk).blank.2.1] at ha

private theorem Regular.endsIn (h : p.Regular p.Generic) (hO : p.Orderly) {α : Type} {x y : Check α}
    {R : α → Program → Prop} (hlo : ∀ n, lo = some n → n = 0) (hx : Runs p.Generic lo x y R) (hends : y.EndsIn p q) :
    q.Orderly ∧ q.Regular q.Generic := by
  have hp : p.Prepared p.Generic lo := ⟨hO,h.avoids,fun n hn => by rw [hlo n hn]; exact Nat.zero_le _⟩
  have hq : q.Orderly ∧ q.Regular p.Generic := by
    refine Ends.endsIn (P := fun q => q.Orderly ∧ q.Regular p.Generic) ((hx p hp).ends.mono ?_ ?_) hends
    · exact fun _ _ _ k => ⟨k.2.1.orderly,k.1.keeps Alters.regular h⟩
    · exact fun _ _ k => ⟨k.2.orderly,k.1.keeps Alters.regular h⟩
  have he : p.Generic = q.Generic := funext fun id => propext (hq.2.generic id)
  exact ⟨hq.1,he ▸ hq.2⟩

private theorem watched_self (stop : Program → Bool) (n : Nat) :
    (watched stop n).Follows G (watched stop n) := follows_watched (fun _ h => h) (Nat.le_refl n)

private theorem Moment.regular (hp : p.Moment) : p.Orderly ∧ p.Regular p.Generic := by
  induction hp with
  | read hp => exact ⟨hp.fresh.orderly,hp.regular⟩
  | @resolve p q stop _ hends ih =>
    exact ih.2.endsIn ih.1 (by simp) ((watched_self stop p.budget).resolveDeclarations 0) hends
  | @typeOf p q stop n scope t _ ht hends ih =>
    exact ih.2.endsIn ih.1 (by simp) (((watched_self stop n).respectsTypes none).resolveType scope ht) hends
  | @instantiate p q stop n generic args location _ ha hends ih =>
    exact ih.2.endsIn ih.1 (by simp) (((watched_self stop n).respects 0).instantiate generic location ha) hends

/-! ### Layouts -/

/-- A finished object: its parent is finished and not generic and has the first of its fields, its ancestors lead to
the base type without a circle, and its fields have different names and types with values. -/
structure LaidOut (t : EntityTable) (id : EntityId) (d : ObjectDef) : Prop where
  parent : id = objectId ∨ ∃ above e, d.parent = some above ∧ t.kind above = .object e ∧ e.isGeneric = false ∧
    e.stage = .done ∧ e.fields <+: d.fields
  chain : ∃ l, t.Chain id l ∧ l.Nodup ∧ l.getLast? = some objectId
  names : (d.fields.map (·.name)).Nodup
  values : ∀ field ∈ d.fields, field.type.hasValue = true

private theorem Regular.getLast?_chain (h : p.Regular G) {l : List EntityId}
    (hl : p.entities.Chain id l) : l.getLast? = some objectId := by
  induction hl with
  | base hk hs hp => rw [(h.layouts _ _ hk hs).base hp]; rfl
  | step hk hs hp hc ih =>
    rw [List.getLast?_cons,ih]
    rfl

private theorem Regular.laidOut (h : p.Regular G) (hk : p.entities.kind id = .object d)
    (hs : d.stage = .done) : LaidOut p.entities id d := by
  have hc := h.layouts id d hk hs
  obtain ⟨l,hl⟩ := h.founded.chain hk hs
  refine ⟨?_,⟨l,hl,hl.nodup,h.getLast?_chain hl⟩,hc.layout.names,hc.layout.values⟩
  cases hp : d.parent with
  | none => exact .inl (hc.base hp)
  | some above =>
    obtain ⟨e,he,hs',hf⟩ := hc.inherited above hp
    exact .inr ⟨above,e,rfl,he,(h.layouts above e he hs').plain,hs',hf⟩

/-- What is above a finished object has the first of its fields. -/
theorem Regular.fields_of_extends (h : p.Regular G) {sub sup : EntityId} (hext : p.entities.Extends sub sup)
    (hd : p.entities.kind sub = .object d) (hs : d.stage = .done)
    (he : p.entities.kind sup = .object e) : e.fields <+: d.fields := by
  induction hext using Relation.ReflTransGen.head_induction_on generalizing d with
  | refl =>
    cases hd.symm.trans he
    exact List.prefix_rfl
  | head hparent _ ih =>
    obtain ⟨d',hd',hp⟩ := hparent
    cases hd.symm.trans hd'
    obtain ⟨m,hm,hms,hf⟩ := (h.layouts _ d hd hs).inherited _ hp
    exact (ih hm hms).trans hf

/-- At every moment, whatever was refused before, finished objects have consistent layouts; so a field has the same
place and type in all objects below the one that declares it. -/
theorem layouts_consistent (hp : p.Moment) :
    (∀ id d, p.entities.kind id = .object d → d.stage = .done → LaidOut p.entities id d) ∧
    ∀ sub sup d e, p.entities.kind sub = .object d → d.stage = .done → p.entities.kind sup = .object e →
      p.entities.Extends sub sup → ∀ (i : Nat) field, e.fields[i]? = some field → d.fields[i]? = some field := by
  refine ⟨fun id d => hp.regular.2.laidOut,fun sub sup d e hd hs he hext i field hf => ?_⟩
  obtain ⟨more,hmore⟩ := hp.regular.2.fields_of_extends hext hd hs he
  have hi : i < e.fields.length := (List.getElem?_eq_some_iff.mp hf).1
  rw [← hmore,List.getElem?_append_left hi,hf]

private def refusedAfterLayouts : String :=
  "(obj C (extends D) (: z f64)) (type D B) (obj B (extends A) (: y i64)) (obj A (: x i32)) (fn f (parameters) (g))"

private def hasLayouts (source : String) : Bool :=
  okAnd (fun _ p =>
    match resolveProgram p with
    | .ok _ _ => false
    | .error _ q =>
      match q.entities.object? ⟨61⟩, q.entities.object? ⟨63⟩, q.entities.object? ⟨64⟩ with
      | some c, some b, some a =>
        c.stage = .done && c.parent = some ⟨63⟩ && b.parent = some ⟨64⟩ && c.fields.length = 3 && a.fields.length = 1
      | _, _, _ => false) (scan [] "main.vast" source initial)

theorem layouts_consistent_sample : ∃ (p q : Program) (reason : Diagnostic) (sub sup : EntityId) (d e : ObjectDef),
    q.Moment ∧ resolveProgram p = .error reason q ∧
    q.entities.kind sub = .object d ∧ d.stage = .done ∧ d.fields.length = 3 ∧
    q.entities.kind sup = .object e ∧ e.fields.length = 1 ∧ q.entities.Extends sub sup ∧
    LaidOut q.entities sub d ∧ ∀ (i : Nat) field, e.fields[i]? = some field → d.fields[i]? = some field := by
  obtain ⟨source,h⟩ : ∃ source, hasLayouts source = true := ⟨refusedAfterLayouts,by decide +kernel⟩
  obtain ⟨_,p,hp,h⟩ := okAnd_iff.mp h
  split at h
  · cases h
  rename_i reason q hq
  split at h
  · rename_i c b a hc hb ha
    simp only [Bool.and_eq_true,decide_eq_true_eq] at h
    obtain ⟨⟨⟨⟨hdone,hcb⟩,hba⟩,hlc⟩,hla⟩ := h
    rw [object?_eq_some] at hc hb ha
    have hmoment : q.Moment := (Moment.read (scanned_of_scan hp)).of_resolveProgram (.inr ⟨reason,hq⟩)
    have hextends : q.entities.Extends ⟨61⟩ ⟨64⟩ := .head ⟨c,hc,hcb⟩ (.single ⟨b,hb,hba⟩)
    obtain ⟨hlaid,hfields⟩ := layouts_consistent hmoment
    exact ⟨p,q,reason,_,_,c,a,hmoment,hq,hc,hdone,hlc,ha,hla,hextends,hlaid _ c hc hdone,
      hfields _ _ c a hc hdone ha hextends⟩
  · cases h

end Program

end FormCompiler
