import FormCompiler.Proofs.Resolution.Scanning

/-! Definitions go from pending over in progress to done and never back, and what is done is final, at every moment of
resolution and whatever is refused. So kept chains of ancestors are never stale. -/

namespace FormCompiler

open Check EntityTable Solver

variable {G : EntityId → Prop} {lo : Option Nat} {e d : ObjectDef} {q p r : Program}

/-! ### Moving forward -/

def Stage.rank : Stage → Nat
  | pending => 0
  | inProgress => 1
  | done => 2

/-- The later object is not at an earlier stage, and one that is done keeps its parent and its fields. -/
structure ObjectDef.Forward (d e : ObjectDef) : Prop where
  stage : d.stage.rank ≤ e.stage.rank
  final : d.stage = .done → e.parent = d.parent ∧ e.fields = d.fields

/-- Neither the signature nor the body is at an earlier stage later. A signature that is done keeps its parameters, and
a return type stays once it is known. -/
structure FunctionDef.Forward (d e : FunctionDef) : Prop where
  signature : d.signature.rank ≤ e.signature.rank
  body : d.bodyStage.rank ≤ e.bodyStage.rank
  final : d.signature = .done → e.paramTypes = d.paramTypes ∧ e.paramVars = d.paramVars
  returnType : ∀ τ, d.returnType = some τ → e.returnType = some τ

/-- The later alias is not at an earlier stage, and one that is done keeps its type. -/
structure AliasDef.Forward (d e : AliasDef) : Prop where
  stage : d.stage.rank ≤ e.stage.rank
  final : d.stage = .done → e.resolved = d.resolved

def EntityKind.Forward (k later : EntityKind) : Prop :=
  match k with
  | .object d => ∃ e, later = .object e ∧ d.Forward e
  | .function d => ∃ e, later = .function e ∧ d.Forward e
  | .typeAlias d => ∃ e, later = .typeAlias e ∧ d.Forward e
  | _ => True

/-- Every definition of the first program is in the second one, and it only moved forward. -/
def Program.Forward (p q : Program) : Prop := ∀ id, (p.entities.kind id).Forward (q.entities.kind id)

private theorem Stage.rank_le_done (s : Stage) : s.rank ≤ Stage.done.rank := by
  cases s <;> decide

private theorem Stage.done_of_rank {s t : Stage} (h : s.rank ≤ t.rank) (hs : s = .done) : t = .done := by
  subst hs
  cases t with
  | done => rfl
  | _ => simp [rank] at h

private theorem ObjectDef.Turns.forward (h : d.Turns G p e) : d.Forward e := by
  cases h with
  | start hs | parent hs | finish hs => exact ⟨by simp [hs,Stage.rank],fun hd => absurd (hs.symm.trans hd) (by simp)⟩
  | keep | addMethods => exact ⟨Nat.le_refl _,fun _ => ⟨rfl,rfl⟩⟩

private theorem AliasDef.Turns.forward {d e : AliasDef} (h : d.Turns G e) : d.Forward e := by
  cases h with
  | start hs | finish hs => exact ⟨by simp [hs,Stage.rank],fun hd => absurd (hs.symm.trans hd) (by simp)⟩

private theorem FunctionDef.Turns.forward {d e : FunctionDef} (h : d.Turns G e) : d.Forward e := by
  cases h with
  | sign hs hret => exact ⟨Stage.rank_le_done _,Nat.le_refl _,fun hd => absurd hd hs,by simp [hret]⟩
  | start _ hb | skip _ hb => exact ⟨Nat.le_refl _,by simp [hb,Stage.rank],fun _ => ⟨rfl,rfl⟩,fun _ hτ => hτ⟩
  | finish _ hb hret =>
    exact ⟨Nat.le_refl _,by simp [hb,Stage.rank],fun _ => ⟨rfl,rfl⟩,fun σ hσ => by rw [hret σ hσ]⟩
  | keep => exact ⟨Nat.le_refl _,Nat.le_refl _,fun _ => ⟨rfl,rfl⟩,fun _ hτ => hτ⟩

namespace EntityKind.Forward

theorem refl (k : EntityKind) : k.Forward k := by
  cases k with
  | object d => exact ⟨d,rfl,Nat.le_refl _,fun _ => ⟨rfl,rfl⟩⟩
  | function d => exact ⟨d,rfl,Nat.le_refl _,Nat.le_refl _,fun _ => ⟨rfl,rfl⟩,fun _ h => h⟩
  | typeAlias d => exact ⟨d,rfl,Nat.le_refl _,fun _ => rfl⟩
  | _ => trivial

theorem trans {a b c : EntityKind} (h : a.Forward b) (k : b.Forward c) : a.Forward c := by
  cases a with
  | object d =>
    obtain ⟨e,rfl,hd⟩ := h
    obtain ⟨f,rfl,he⟩ := k
    refine ⟨f,rfl,Nat.le_trans hd.stage he.stage,fun hs => ?_⟩
    obtain ⟨hp,hf⟩ := hd.final hs
    obtain ⟨hp',hf'⟩ := he.final (Stage.done_of_rank hd.stage hs)
    exact ⟨hp'.trans hp,hf'.trans hf⟩
  | function d =>
    obtain ⟨e,rfl,hd⟩ := h
    obtain ⟨f,rfl,he⟩ := k
    refine ⟨f,rfl,Nat.le_trans hd.signature he.signature,Nat.le_trans hd.body he.body,fun hs => ?_,
      fun τ hτ => he.returnType τ (hd.returnType τ hτ)⟩
    obtain ⟨hp,hf⟩ := hd.final hs
    obtain ⟨hp',hf'⟩ := he.final (Stage.done_of_rank hd.signature hs)
    exact ⟨hp'.trans hp,hf'.trans hf⟩
  | typeAlias d =>
    obtain ⟨e,rfl,hd⟩ := h
    obtain ⟨f,rfl,he⟩ := k
    exact ⟨f,rfl,Nat.le_trans hd.stage he.stage,fun hs =>
      (he.final (Stage.done_of_rank hd.stage hs)).trans (hd.final hs)⟩
  | _ => trivial

end EntityKind.Forward

namespace Program

variable {f : EntityKind → EntityKind} {id : EntityId}

namespace Forward

theorem refl (p : Program) : p.Forward p := fun _ => .refl _

theorem trans (h : p.Forward q) (k : q.Forward r) : p.Forward r := fun id => (h id).trans (k id)

private theorem of_entities (h : q.entities = p.entities) : p.Forward q := fun _ => h ▸ .refl _

private theorem alloc (p : Program) (name : String) (location : Location) (k : EntityKind) :
    p.Forward { p with entities := (p.entities.alloc name location k).2 } := by
  intro id
  rcases p.entities.kind_alloc_cases name location k id with he | ⟨rfl, -⟩
  · exact he ▸ .refl _
  · have hk : p.entities.kind ⟨p.entities.size⟩ = .primitive default := kind_of_size_le (Nat.le_refl _)
    rw [hk]
    trivial

private theorem modifyKind (h : (p.entities.kind id).Forward (f (p.entities.kind id))) :
    p.Forward { p with entities := p.entities.modifyKind id f } := by
  intro j
  rcases p.entities.kind_modifyKind_cases id f j with he | ⟨rfl,he⟩
  · exact he ▸ .refl _
  · exact he ▸ h

end Forward

/-! ### Kept chains -/

structure Recorded (p : Program) : Prop where
  generic : ∀ id d, p.entities.kind id = .object d → d.isGeneric = true → d.parent = none
  anchored : p.entities.Anchored
  kept : p.ancestry.Keeps p.entities

namespace Recorded

private theorem ascent (h : p.Recorded) (hk : p.entities.kind id = .object d)
    (hd : d.stage = .done ∨ d.isGeneric = true) : ∃ l, p.entities.Ascent id l := by
  cases hp : d.parent with
  | none => exact ⟨_,.top hk hp hd⟩
  | some above =>
    rcases hd with hd | hd
    · obtain ⟨l,hl⟩ := h.anchored id d above hk hp
      exact ⟨_,.step hk hd hp hl⟩
    · cases (h.generic id d hk hd).symm.trans hp

/-- Entities are changed, but finished objects keep their parents, and generic ones get none. -/
theorem of_entities (h : p.Recorded) {t : EntityTable}
    (hold : ∀ id d, p.entities.kind id = .object d → ∃ e, t.kind id = .object e ∧
      (d.stage = .done → e.stage = .done ∧ e.parent = d.parent) ∧
      (d.isGeneric = true → e.isGeneric = true ∧ e.parent = none))
    (hnew : ∀ id e, t.kind id = .object e → p.entities.kind id = .object e ∨
      (e.isGeneric = true → e.parent = none) ∧ ∀ above, e.parent = some above → ∃ l, p.entities.Ascent above l) :
    Recorded { p with entities := t } where
  generic id e hk hg := by
    rcases hnew id e hk with he | ⟨hp, -⟩
    · exact h.generic id e he hg
    · exact hp hg
  anchored id e above hk hp := by
    have hup : ∃ l, p.entities.Ascent above l := by
      rcases hnew id e hk with he | ⟨-,hup⟩
      · exact h.anchored id e above he hp
      · exact hup above hp
    obtain ⟨l,hl⟩ := hup
    exact ⟨l,hl.mono hold⟩
  kept id l hl := (h.kept id l hl).mono hold

private theorem modifyOther (h : p.Recorded) (hk : ∀ d, p.entities.kind id ≠ .object d)
    (hf : ∀ d, f (p.entities.kind id) ≠ .object d) : Recorded { p with entities := p.entities.modifyKind id f } := by
  refine h.of_entities (fun j d hj => ?_) fun j e he => ?_
  · have hne : j ≠ id := by
      rintro rfl
      exact hk d hj
    refine ⟨d,(kind_modifyKind_ne hne f).trans hj,fun hs => ⟨hs,rfl⟩,fun hg => ⟨hg,?_⟩⟩
    exact h.generic j d hj hg
  · rcases p.entities.kind_modifyKind_cases id f j with hj | ⟨rfl,hj⟩
    · exact .inl (hj.symm.trans he)
    · exact absurd (hj.symm.trans he) (hf e)

/-- An object that goes on. -/
theorem turns (h : p.Recorded) (hk : p.entities.kind id = .object d) (ht : d.Turns G p e) :
    (d.stage = .done → e.stage = .done ∧ e.parent = d.parent) ∧
      (d.isGeneric = true → e.isGeneric = true ∧ e.parent = none) ∧ (e.isGeneric = true → e.parent = none) ∧
      ∀ above, e.parent = some above → ∃ l, p.entities.Ascent above l := by
  have hg := h.generic id d hk
  have hup : ∀ above, d.parent = some above → ∃ l, p.entities.Ascent above l := fun above => h.anchored id d above hk
  cases ht with
  | start hs | finish hs => exact ⟨fun hd => absurd (hs.symm.trans hd) (by simp),fun hd => ⟨hd,hg hd⟩,hg,hup⟩
  | parent hs hplain _ _ hc hdone =>
    refine ⟨fun hd => absurd (hs.symm.trans hd) (by simp),fun hd => absurd (hplain.symm.trans hd) (by simp),
      fun hd => absurd (hplain.symm.trans hd) (by simp),?_⟩
    rintro _ ⟨⟩
    exact h.ascent hc hdone
  | keep | addMethods => exact ⟨fun hd => ⟨hd,rfl⟩,fun hd => ⟨hd,hg hd⟩,hg,hup⟩

end Recorded

/-! ### Single changes -/

private theorem Alters.forward (h : Alters G lo p q) : p.Forward q := by
  cases h with
  | tables he => exact .of_entities he
  | ancestors | nodes | scopes => exact .of_entities rfl
  | alloc name location => exact .alloc p name location _
  | object hk ht | typeAlias hk ht | function hk ht => exact .modifyKind (by rw [hk]; exact ⟨_,rfl,ht.forward⟩)

private theorem Alters.recorded (hc : Alters G lo p q) (h : p.Recorded) : q.Recorded := by
  cases hc with
  | tables he _ _ ha => exact ⟨he ▸ h.generic,he ▸ h.anchored,by rw [he,ha]; exact h.kept⟩
  | ancestors id => exact ⟨h.generic,h.anchored,Ancestry.keeps_chain h.anchored h.kept id⟩
  | nodes | scopes => exact ⟨h.generic,h.anchored,h.kept⟩
  | @alloc _ _ k name location _ ho =>
    refine h.of_entities (fun id d hk => ?_) fun id e he => ?_
    · refine ⟨d,?_,fun hs => ⟨hs,rfl⟩,fun hg => ⟨hg,h.generic id d hk hg⟩⟩
      rwa [kind_alloc_of_lt (lt_size_of_kind (by simp [hk]))]
    · rcases p.entities.kind_alloc_cases name location k id with hj | ⟨-,hj⟩
      · exact .inl (hj.symm.trans he)
      · obtain ⟨_,_,_,_,_,rfl⟩ := ho e (hj.symm.trans he)
        exact .inr ⟨fun _ => rfl,by simp [objectInstance]⟩
  | @object _ _ id d f hk ht =>
    obtain ⟨hdone,hgen,hgen',hup⟩ := h.turns hk ht
    refine h.of_entities (fun j e he => ?_) fun j e he => ?_
    · rcases kind_modifyObject_cases hk f j with hj | ⟨rfl,hj⟩
      · exact ⟨e,hj.trans he,fun hs => ⟨hs,rfl⟩,fun hg => ⟨hg,h.generic j e he hg⟩⟩
      · cases hk.symm.trans he
        exact ⟨f d,hj,hdone,hgen⟩
    · rcases kind_modifyObject_cases hk f j with hj | ⟨rfl,hj⟩
      · exact .inl (hj.symm.trans he)
      · cases hj.symm.trans he
        exact .inr ⟨hgen',hup⟩
  | typeAlias hk | function hk => exact h.modifyOther (by simp [hk]) (by simp [hk])

private theorem Evolves.forward (h : p.Evolves G lo q) : p.Forward q := by
  induction h with
  | refl => exact .refl p
  | tail _ hc ih => exact ih.trans hc.forward

end Program

/-! ### Sequences of requests -/

/-- What resolution can be asked for. -/
inductive Request
  | object (id : EntityId)
  | typeAlias (id : EntityId)
  | signature (id : EntityId)
  | body (id : EntityId)
  | instantiate (generic : EntityId) (args : List Ty) (location : Location)
  | attachMethods
  | typeOf (scope : ScopeId) (t : TypeExpr)
  | expr (id : ExprId) (scope : ScopeId)
  | compare (source wanted : Ty)
  | join (a b : Ty)
  | declarations

def Solver.serve (S : Solver) : Request → Check Unit
  | .object id => S.resolveObject id
  | .typeAlias id => do let _ ← S.resolveAlias id
  | .signature id => S.resolveSignature id
  | .body id => S.resolveBody id
  | .instantiate generic args location => do let _ ← S.instantiate generic args location
  | .attachMethods => S.attachMethods
  | .typeOf scope t => do let _ ← S.resolveType scope t
  | .expr id scope => do let _ ← S.resolveExpr id scope
  | .compare source wanted => do let _ ← isAssignable source wanted
  | .join a b => do let _ ← join? a b
  | .declarations => S.resolveDeclarations

private theorem Solver.Follows.serve {S T : Solver} (h : S.Follows (fun _ => False) T) (request : Request) :
    Runs (fun _ => False) (some 0) (S.serve request) (T.serve request) fun _ _ => True := by
  have hR := h.respects 0
  cases request with
  | object id => exact ((h.resolveObject id).widen _).imp fun _ _ _ => trivial
  | typeAlias id =>
    refine hR.bind (A := fun _ => True) (((h.resolveAlias id).widen _).imp fun _ _ _ => trivial) fun _ _ => ?_
    exact hR.pure trivial
  | signature id => exact (h.resolveSignature id).imp fun _ _ _ => trivial
  | body id => exact (h.resolveBody id).imp fun _ _ _ => trivial
  | instantiate generic args location =>
    exact hR.bind (hR.instantiate generic location fun τ _ => τ.avoids_none) fun _ _ => hR.pure trivial
  | attachMethods => exact h.attachMethods _
  | typeOf scope t => exact hR.bind (hR.resolveType scope t.avoids_none) fun _ _ => hR.pure trivial
  | expr id scope => exact hR.bind (h.resolveExpr (Nat.zero_le _) id) fun _ _ => hR.pure trivial
  | compare source wanted => exact hR.bind (hR.isAssignable source wanted) fun _ _ => hR.pure trivial
  | join a b => exact hR.bind (hR.join? a.avoids_none b.avoids_none) fun _ _ => hR.pure trivial
  | declarations => exact h.resolveDeclarations 0

private theorem Check.EndsIn.unique {α : Type} {x : Check α} (hq : x.EndsIn p q) (hr : x.EndsIn p r) : q = r := by
  rcases hq with ⟨a,hq⟩ | ⟨d,hq⟩ <;> rcases hr with ⟨b,hr⟩ | ⟨e,hr⟩ <;> cases hq.symm.trans hr <;> rfl

/-- Where the first action ends, everything only moves forward from, to where the second one ends. -/
theorem Check.Tracks.forward {α : Type} {x y : Check α} {m : Program}
    (h : Tracks G lo x y p) (hm : x.EndsIn p m) (hq : y.EndsIn p q) : m.Forward q := by
  rcases h with he | ⟨location,m',hx,hend⟩
  · have hm' : y.EndsIn p m := by rwa [Check.EndsIn,← he]
    exact hm'.unique hq ▸ .refl m
  · have hm' : x.EndsIn p m' := .inr ⟨_,hx⟩
    exact hm.unique hm' ▸ (hend.endsIn (P := fun r => m'.Evolves G lo r) hq).forward

namespace Program

/-- A program after a number of requests, each of them granted or refused or stopped on the way. -/
inductive Run (p : Program) : Program → Prop
  | refl : Run p p
  | step {q r : Program} {request : Request} {stop : Program → Bool} {n : Nat} : Run p q →
      ((watched stop n).serve request).EndsIn q r → Run p r

private theorem Scanned.recorded (hp : p.Scanned) : p.Recorded where
  generic id d hk _ := (hp.fresh.object hk).blank.2.1
  anchored id d above hk ha := by simp [(hp.fresh.object hk).blank.2.1] at ha
  kept id l hl := by simp [hp.fresh.ancestry] at hl

/-- What one request keeps, a run keeps. -/
theorem Run.forward (h : p.Run q) (hO : p.Orderly) (hp : p.Recorded) : p.Forward q ∧ q.Orderly ∧ q.Recorded := by
  induction h with
  | refl => exact ⟨.refl p,hO,hp⟩
  | @step q r request stop n _ hends ih =>
    obtain ⟨hf,hO',hq⟩ := ih
    have hserve := (follows_watched (fun p (h : stop p = true) => h) (Nat.le_refl n)).serve request
    obtain ⟨he,hleaves⟩ := ((hserve q (.of_orderly hO')).ends.mono
      (fun _ _ _ k => ⟨k.1,k.2.1.toLeaves⟩) fun _ _ k => k).endsIn (P := fun r => q.Evolves _ _ r ∧ q.Leaves none r) hends
    exact ⟨hf.trans he.forward,hleaves.orderly,he.keeps Alters.recorded hq⟩

/-- Whatever is asked for after a program was read, granted or refused: kept chains of ancestors are those that the
entities give, definitions only move forward with later requests, and they do so from every moment of a request to every
later one. -/
theorem done_final (hp : p.Scanned) (hq : p.Run q) :
    (∀ id l, q.ancestry.chains.lookup id = some l → (({} : Ancestry).chain q.entities id).1 = l) ∧
    (∀ r, q.Run r → q.Forward r) ∧ ∀ (request : Request) (n : Nat) (stop later : Program → Bool) (m r : Program),
      (∀ p, later p = true → stop p = true) → ((watched stop n).serve request).EndsIn q m →
      ((watched later n).serve request).EndsIn q r → m.Forward r := by
  obtain ⟨-,hO,hrec⟩ := hq.forward hp.fresh.orderly hp.recorded
  refine ⟨fun id l hl => hrec.kept.recomputed hl,fun r hr => (hr.forward hO hrec).1,?_⟩
  intro request n stop later m r hstop hm hr
  exact (((follows_watched hstop (Nat.le_refl n)).serve request) q (.of_orderly hO)).tracks.forward hm hr

/-- Three objects below each other, of which the first one is used as the last one before a function is refused. -/
private def refusedAfterUse : String :=
  "(obj C (extends D) (: z f64)) (type D B) (obj B (extends A) (: y i64)) (obj A (: x i32)) " ++
    "(fn f (parameters (: c C)) (return_type A) c) (fn g (parameters) (h))"

private def objectAt (id : EntityId) (stage : Stage) (p : Program) : Bool :=
  (p.entities.object? id).any (·.stage = stage)

private def usesAncestor (source : String) : Bool :=
  okAnd (fun _ p =>
    match (watched (fun _ => false) p.budget).serve .declarations p,
      (watched (objectAt ⟨61⟩ .inProgress) p.budget).serve .declarations p with
    | .error _ q, .error _ m =>
      objectAt ⟨61⟩ .inProgress m && objectAt ⟨61⟩ .done q &&
        q.ancestry.chains.lookup ⟨61⟩ = some [⟨61⟩,⟨63⟩,⟨64⟩,objectId]
    | _, _ => false) (scan [] "main.vast" source initial)

theorem done_final_sample : ∃ p m q : Program, p.Scanned ∧ p.Run q ∧
    ((watched (objectAt ⟨61⟩ .inProgress) p.budget).serve .declarations).EndsIn p m ∧
    objectAt ⟨61⟩ .inProgress m = true ∧ objectAt ⟨61⟩ .done q = true ∧
    q.ancestry.chains.lookup ⟨61⟩ = some [⟨61⟩,⟨63⟩,⟨64⟩,objectId] ∧ m.Forward q ∧ (∀ r, q.Run r → q.Forward r) ∧
    (({} : Ancestry).chain q.entities ⟨61⟩).1 = [⟨61⟩,⟨63⟩,⟨64⟩,objectId] := by
  obtain ⟨source,h⟩ : ∃ source, usesAncestor source = true := ⟨refusedAfterUse,by decide +kernel⟩
  obtain ⟨_,p,hp,h⟩ := okAnd_iff.mp h
  split at h
  · rename_i d q d' m hq hm
    simp only [Bool.and_eq_true,decide_eq_true_eq] at h
    have hrun : p.Run q := .step .refl (.inr ⟨_,hq⟩)
    obtain ⟨-, -,hmoments⟩ := done_final (scanned_of_scan hp) .refl
    obtain ⟨hchains,hlater, -⟩ := done_final (scanned_of_scan hp) hrun
    exact ⟨p,m,q,scanned_of_scan hp,hrun,.inr ⟨_,hm⟩,h.1.1,h.1.2,h.2,
      hmoments _ _ _ _ m q (by simp) (.inr ⟨_,hm⟩) (.inr ⟨_,hq⟩),hlater,hchains _ _ h.2⟩
  · cases h

end Program

end FormCompiler
