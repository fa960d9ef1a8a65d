import FormCompiler.Proofs.Resolution.Imports

/-! Programs that were read and not resolved yet: they start from what the language provides, and declarations and
imports only add to it. -/

namespace FormCompiler

open EntityTable ScopeTable Program List

open Check

variable {pub : Location → Prop} {p q : Program} {valid : Prop} {α : Type} {name file source : String} {scope : ScopeId}
  {library : List SourceFile}

/-- Whether it is refused or not, the action only adds what nothing was done about. -/
def Scanning {α : Type} (x : Check α) : Prop := ∀ p, Ends x p (fun _ q => p.Scans q) fun _ q => p.Scans q

private theorem Check.Changing.scans {x : Check α} {post : α → Program → Prop} (h : Changing valid pub x p post) :
    Ends x p (fun _ q => p.Scans q) fun _ q => p.Scans q :=
  Ends.mono h (fun _ _ _ h => h.1.scans) fun _ _ h => h.scans

theorem changes_addRootModule (hs : valid → p.scopes.Has root) :
    Changing valid pub (addRootModule name) p fun scope q => scope.index = p.scopes.size ∧ q.scopes.Has scope :=
  (Declaration.changes_newModule hs).bind fun _ _ _ h => .pure h.2

theorem scanning_addRootModule (name : String) : Scanning (addRootModule name) := by
  intro p
  have h : Changing False (fun _ => True) (addRootModule name) p _ := changes_addRootModule False.elim
  exact h.scans

theorem Declaration.scanning_addAll (forms : List Form) (scope : ScopeId) : Scanning (addAll scope forms) := by
  intro p
  have h : Changing False (fun _ => True) (addAll scope forms) p _ := changes_addAll False.elim fun _ _ _ _ => trivial
  exact h.scans

theorem Import.scanning_bindAll : Scanning bindAll := fun p =>
  imports_bindAll.mono (fun _ _ _ h => (Scans.wait [] p.pendingImpls).trans h.scans) fun _ _ h =>
    (Scans.wait [] p.pendingImpls).trans h.scans

namespace Program

variable {params : List (String × TypeExpr)} {op : Intrinsic} {result : TypeExpr}

/-! ### What the language provides -/

private theorem Fresh.provide (hF : p.Fresh) (name : String) (kind : EntityKind)
    (hk : kind.Fresh ⟨p.entities.size⟩ p.scopes.Has p.exprs)
    (hbody : ∀ d, kind = .function d → ∀ first root, d.body ≠ .expr first root) : p.Declares (p.provide name kind) := by
  have d1 := hF.alloc name .builtin hk fun d hd _ _ _ _ ⟨first,root,hb,_⟩ => absurd hb (hbody d hd first root)
  exact d1.trans (d1.fresh.bind _ _ (by simp) fun h => absurd rfl h)

private theorem Fresh.provideFunction (hF : p.Fresh) (hroot : 0 < p.scopes.size) (name : String)
    {typeParams : List String} (hparams : ∀ param ∈ params, ∀ t, param.2.Good t) (hresult : ∀ t, result.Good t)
    (hop : ∀ d : FunctionDef, d.scope = root → d.typeParams = typeParams → d.params.map (·.declared) = params.map (·.2) →
      d.returnExpr = some result → op.Declares d) :
    p.Declares (p.provideFunction name typeParams params result op) := by
  refine hF.provide name _ ⟨hroot,fun param hp t => ?_,fun x hx t => ?_,⟨rfl,rfl⟩,⟨rfl,rfl,rfl⟩,
    fun _ _ hb => (nomatch hb),fun op' hb => ?_⟩ fun d hd first root hb => ?_
  · obtain ⟨x,hx,rfl⟩ := mem_map.mp hp
    exact hparams x hx t
  · cases hx
    exact hresult t
  · cases hb
    exact hop _ rfl rfl (by simp) rfl
  · cases hd
    cases hb

private theorem Fresh.provideOperator (hF : p.Fresh) (hroot : 0 < p.scopes.size) {operator : Operator}
    (hop : operator ∈ Operator.all) {operand : Prim} (ho : operand ∈ operator.operands) :
    p.Declares (p.provideOperator operator operand) := by
  unfold Program.provideOperator
  cases hn : operand.numType? with
  | none => exact .refl hF
  | some type =>
    refine hF.provideFunction hroot _ ?_ (fun _ => .resolved trivial) fun d _ h1 h2 h3 => ?_
    · simp only [mem_cons,not_mem_nil,or_false,forall_eq_or_imp,forall_eq]
      exact ⟨fun _ => .resolved trivial,fun _ => .resolved trivial⟩
    · exact .binary hop ho hn h1 (by simpa using h2) h3

private theorem foldl_declares {f : Program → α → Program} {l : List α}
    (hf : ∀ x ∈ l, ∀ p : Program, p.Fresh → 0 < p.scopes.size → p.Declares (f p x)) :
    ∀ {p : Program}, p.Fresh → 0 < p.scopes.size → p.Declares (l.foldl f p) := by
  induction l with
  | nil => exact fun hF _ => .refl hF
  | cons x l ih =>
    intro p hF hroot
    have d1 := hf x (by simp) p hF hroot
    exact d1.trans (ih (fun y hy => hf y (by simp [hy])) d1.fresh (Nat.lt_of_lt_of_le hroot d1.scopes))

private theorem Fresh.provideOperators (hF : p.Fresh) (hroot : 0 < p.scopes.size) : p.Declares p.provideOperators :=
  foldl_declares (fun _ hop _ hF hroot =>
    foldl_declares (fun _ ho _ hF hroot => hF.provideOperator hroot hop ho) hF hroot) hF hroot

private theorem good_arraySignature {params : List TypeExpr} (h : op.arraySignature? = some (params, result)) :
    (∀ x ∈ params, ∀ t, x.Good t) ∧ ∀ t, result.Good t := by
  have helement : ∀ t, (TypeExpr.named "T" .builtin).Good t := fun _ => .named
  have harray : ∀ t, (TypeExpr.apply "FixedArray" [.named "T" .builtin] .builtin).Good t :=
    fun _ => .apply (by simp [TypeExpr.Good.named])
  have hprim : ∀ prim t, (TypeExpr.resolved (.prim prim)).Good t := fun _ _ => .resolved trivial
  cases op <;> cases h <;> simp [helement,harray,hprim,Ty.i32,Ty.void]

private theorem Declares.provideArray (d : p.Declares q)
    (hroot : 0 < p.scopes.size) (h : op.arraySignature? = some (params.map (·.2), result)) :
    p.Declares (q.provideFunction name ["T"] params result op) := by
  obtain ⟨hparams,hresult⟩ := good_arraySignature h
  refine d.trans (d.fresh.provideFunction (Nat.lt_of_lt_of_le hroot d.scopes) name ?_ hresult ?_)
  · exact fun param hp => hparams param.2 (mem_map_of_mem hp)
  · exact fun d h1 h2 h3 h4 => .arrayTemplate h h1 h2 h3 h4

private theorem Fresh.provideArrays (hF : p.Fresh) (hroot : 0 < p.scopes.size) : p.Declares p.provideArrays :=
  ((((Declares.refl hF).provideArray hroot rfl).provideArray hroot rfl).provideArray hroot rfl).provideArray hroot rfl

private theorem fresh_empty : Fresh {} := by
  have hget : ∀ x, (({} : Program).scopes.get x) = { parent := none, kind := .root } := by
    rintro ⟨_ | i⟩ <;> rfl
  constructor
  · simp [hget]
  · simp [hget,ScopeKind.isStatic]
  · simp [here,hget,Scope.bound]
  · simp [exports,hget]
  · intro id
    trivial
  · intro n
    exact Expr.fresh_default
  · intro f g d e n hf
    cases hf
  · rfl

private def prims : Program :=
  Prim.all.foldl (fun (p : Program) prim => p.provide prim.name (.primitive prim)) {}

private theorem declares_prims : Declares {} prims :=
  foldl_declares (fun prim _ _ hF _ => hF.provide prim.name (.primitive prim) trivial (by simp)) fresh_empty (by decide)

private theorem Declares.provideNot (d : p.Declares q) (hroot : 0 < p.scopes.size) : p.Declares
      (q.provideFunction "not" [] [("value", .resolved .bool)] (.resolved .bool) .not) := by
  have hbool : ∀ t, (TypeExpr.resolved .bool).Good t := fun _ => .resolved trivial
  exact d.trans (d.fresh.provideFunction (Nat.lt_of_lt_of_le hroot d.scopes) "not"
    (by simpa using hbool) hbool fun _ _ h1 h2 h3 => .not h1 h2 h3)

private def base : ObjectDef := { scope := root, stage := .done }

/-- What the language provides is declared, and nothing of it is resolved. -/
theorem fresh_initial : initial.Fresh ∧ initial.HasBase ∧ initial.HasArrays ∧ 0 < initial.scopes.size := by
  have hid : (⟨prims.entities.size⟩ : EntityId) = objectId := rfl
  have hroot : 0 < prims.scopes.size := by decide
  have d1 := declares_prims.fresh.provide "Object" (.object base)
    ⟨hroot,fun _ => rfl,by simp [base],by simp [base],.inr ⟨rfl,hid,rfl⟩,rfl,rfl,rfl,rfl⟩ (by simp)
  have d2 := d1.fresh.provide "FixedArray" .arrayType trivial (by simp)
  have h2 : 0 < ((prims.provide "Object" (.object base)).provide "FixedArray" .arrayType).scopes.size :=
    Nat.lt_of_lt_of_le hroot (d1.trans d2).scopes
  have d3 := (d2.fresh.provideOperators h2).provideNot h2
  have d4 : Declares ((prims.provide "Object" (.object base)).provide "FixedArray" .arrayType) initial :=
    d3.trans (d3.fresh.provideArrays (Nat.lt_of_lt_of_le h2 d3.scopes))
  have hobject : (prims.provide "Object" (.object base)).entities.kind objectId = .object base :=
    kind_alloc_self ..
  have hself := ((d2.trans d4).kind (by decide)).trans hobject
  exact ⟨d4.fresh,⟨base,hself,rfl,rfl⟩,
    d4.hasArrays ⟨⟨7⟩,[],by decide,kind_alloc_self ..⟩,Nat.lt_of_lt_of_le h2 d4.scopes⟩

/-! ### Programs that are ready to be resolved -/

/-- A program that was read: modules were added to what the language provides, declarations to modules, and imports
were bound. -/
inductive Scanned : Program → Prop
  | initial : Scanned initial
  | addModule {p q : Program} {name : String} {scope : ScopeId} : Scanned p → addRootModule name p = .ok scope q →
      Scanned q
  | declare {p q : Program} {scope : ScopeId} {forms : List Form} : Scanned p → scope.index < p.scopes.size →
      Declaration.addAll scope forms p = .ok () q → Scanned q
  | bindImports {p q : Program} : Scanned p → Import.bindAll p = .ok () q → Scanned q

private theorem Declares.of_addRootModule (hF : p.Fresh) (hroot : 0 < p.scopes.size)
    (h : addRootModule name p = .ok scope q) : p.Declares q ∧ q.scopes.Has scope ∧ scope ≠ root := by
  have hadd : Changing True (fun _ => True) (addRootModule name) p _ := changes_addRootModule fun _ => hroot
  obtain ⟨hc,hindex,hhas⟩ := hadd.of_ok h
  refine ⟨hc.declares trivial hF,hhas,?_⟩
  rintro rfl
  exact absurd hindex (Nat.ne_of_lt hroot)

private theorem Declares.of_addAll {forms : List Form} (hF : p.Fresh) (hs : p.scopes.Has scope)
    (h : Declaration.addAll scope forms p = .ok () q) : p.Declares q := by
  have hadd : Changing True (fun _ => True) (Declaration.addAll scope forms) p _ :=
    Declaration.changes_addAll (fun _ => hs) fun _ _ _ _ => trivial
  exact (hadd.of_ok h).1.declares trivial hF

private theorem Declares.of_bindAll (hF : p.Fresh) (h : Import.bindAll p = .ok () q) : p.Declares q := by
  have hi := Import.imports_bindAll.of_ok h
  have d := hF.wait [] p.pendingImpls
  exact d.trans ⟨hi.scans,hi.fresh d.fresh⟩

namespace Scanned

section

variable (hp : p.Scanned)
include hp

private theorem declares : Program.initial.Declares p := by
  obtain ⟨hF,_,_,hroot⟩ := fresh_initial
  induction hp with
  | initial => exact .refl hF
  | addModule _ h ih => exact ih.trans (Declares.of_addRootModule ih.fresh (Nat.lt_of_lt_of_le hroot ih.scopes) h).1
  | declare _ hs h ih => exact ih.trans (.of_addAll ih.fresh hs h)
  | bindImports _ h ih => exact ih.trans (.of_bindAll ih.fresh h)

theorem fresh : p.Fresh := hp.declares.fresh

theorem hasBase : p.HasBase := hp.declares.hasBase fresh_initial.2.1

theorem hasArrays : p.HasArrays := hp.declares.hasArrays fresh_initial.2.2.1

private theorem scopes_pos : 0 < p.scopes.size := Nat.lt_of_lt_of_le fresh_initial.2.2.2 hp.declares.scopes

/-- No slot of any node is filled. -/
theorem blank (n : ExprId) : (p.exprs.get n).type = none ∧ (p.exprs.get n).shape.blank = (p.exprs.get n).shape :=
  ⟨(hp.fresh.nodes n).type,(hp.fresh.nodes n).blank⟩

private theorem addSource (hs : p.scopes.Has scope)
    (h : FormCompiler.addSource scope file source p = .ok () q) : q.Scanned ∧ q.scopes.Has scope := by
  obtain ⟨forms,_,h1,h2⟩ := bind_ok.mp h
  obtain ⟨_,rfl⟩ := ofExcept_ok.mp h1
  exact ⟨hp.declare hs h2,Nat.lt_of_lt_of_le hs (Declares.of_addAll hp.fresh hs h2).scopes⟩

private theorem addFiles {files : List SourceFile} (hs : p.scopes.Has scope)
    (h : FormCompiler.addFiles scope files p = .ok () q) : q.Scanned := by
  induction files generalizing p with
  | nil =>
    cases h
    exact hp
  | cons file files ih =>
    obtain ⟨_,p1,h1,h2⟩ := bind_ok.mp h
    obtain ⟨hp1,hs1⟩ := hp.addSource hs h1
    exact ih hp1 hs1 h2

end

end Scanned

end Program

/-- The phases before resolution: the library and the source are read, and imports bound. -/
def scan (library : List SourceFile) (file source : String) : Check ScopeId := do
  addLibrary library
  let scope ← addRootModule "src"
  addSource scope file source
  Import.bindAll
  return scope

private theorem scan_ok (h : scan library file source initial = .ok scope p) :
    p.Scanned ∧ p.scopes.Has scope ∧ scope ≠ root := by
  obtain ⟨_,p2,h1,h⟩ := bind_ok.mp h
  obtain ⟨std,p1,h2,h3⟩ := bind_ok.mp h1
  obtain ⟨src,p3,h4,h⟩ := bind_ok.mp h
  obtain ⟨_,p4,h5,h⟩ := bind_ok.mp h
  obtain ⟨_,h6,rfl⟩ := bind_pure_ok.mp h
  have hp0 := Scanned.initial
  have hp2 := (hp0.addModule h2).addFiles (Declares.of_addRootModule hp0.fresh hp0.scopes_pos h2).2.1 h3
  obtain ⟨_,hs,hne⟩ := Declares.of_addRootModule hp2.fresh hp2.scopes_pos h4
  obtain ⟨hp4,hs⟩ := (hp2.addModule h4).addSource hs h5
  exact ⟨hp4.bindImports h6,Nat.lt_of_lt_of_le hs (Declares.of_bindAll hp4.fresh h6).scopes,hne⟩

theorem scanned_of_scan (h : scan library file source initial = .ok scope p) : p.Scanned := (scan_ok h).1

namespace Program

variable {exports : List (String × EntityId)}

/-! ### Accepted sources -/

/-- What the exports of a resolved program are: functions of its own, each under one name. -/
structure ExportsOk (p : Program) (exports : List (String × EntityId)) : Prop where
  names : (exports.map (·.1)).Nodup
  ids : (exports.map (·.2)).Nodup
  functions : ∀ x ∈ exports, ∃ d, p.entities.kind x.2 = .function d ∧ d.typeParams = [] ∧ d.intrinsic? = none

private theorem nodup_eraseDups [BEq α] [LawfulBEq α] : ∀ l : List α, l.eraseDups.Nodup
  | [] => by simp
  | a :: l => by
    rw [eraseDups_cons,nodup_cons]
    exact ⟨by simp [mem_eraseDups],nodup_eraseDups _⟩
termination_by l => l.length
decreasing_by exact Nat.lt_succ_of_le (length_filter_le _ _)

private theorem namedExports_ok {entities : EntityTable} {P : EntityId → Prop} {ids : List EntityId} :
    ∀ {found exports : List (String × EntityId)}, namedExports entities found ids = .ok exports →
      (found.map (·.1)).Nodup → (found.map (·.2) ++ ids).Nodup → (∀ id ∈ ids, P id) →
      (∀ x ∈ found, P x.2 ∧ ∃ d, entities.kind x.2 = .function d ∧ d.typeParams = []) →
      (exports.map (·.1)).Nodup ∧ (exports.map (·.2)).Nodup ∧
        ∀ x ∈ exports, P x.2 ∧ ∃ d, entities.kind x.2 = .function d ∧ d.typeParams = [] := by
  induction ids with
  | nil =>
    intro found exports h hn hi _ hf
    cases h
    exact ⟨hn,by simpa using hi,hf⟩
  | cons id ids ih =>
    intro found exports h hn hi hP hf
    have hrest : (found.map (·.2) ++ ids).Nodup := hi.sublist (by simp)
    simp only [namedExports] at h
    cases hk : (entities.get id).function? with
    | none =>
      simp only [hk] at h
      exact ih h hn hrest (fun j hj => hP j (by simp [hj])) hf
    | some d =>
      simp only [hk] at h
      split at h
      · exact ih h hn hrest (fun j hj => hP j (by simp [hj])) hf
      · split at h
        · cases h
        · rename_i hgeneric hname
          refine ih h ?_ ?_ (fun j hj => hP j (by simp [hj])) fun x hx => ?_
          · simp only [map_append,map_cons,map_nil]
            refine nodup_append.mpr ⟨hn,by simp,fun a ha b hb => ?_⟩
            rintro rfl
            obtain ⟨x,hx,rfl⟩ := mem_map.mp ha
            apply hname
            rw [any_eq_true]
            exact ⟨x,hx,by simpa using hb⟩
          · simpa using hi
          · rcases mem_append.mp hx with hx | hx
            · exact hf x hx
            · cases mem_singleton.mp hx
              refine ⟨hP id (by simp),d,function?_eq_some.mp hk,?_⟩
              simpa [FunctionDef.isGeneric] using hgeneric

/-- The exports of a module come from its declarations. -/
private theorem exportsOf_ok (hF : p.Fresh) (hg : p.Grows q) (hs : scope.index < p.scopes.size) (hroot : scope ≠ root)
    (h : q.exportsOf scope = .ok exports) : q.ExportsOk exports := by
  have hdecl : ∀ id ∈ (q.scopes.exports scope ++ q.scopes.here scope entryPoint).eraseDups, p.Declared id := by
    intro id hid
    rw [mem_eraseDups] at hid
    rcases mem_append.mp hid with hid | hid
    · simp only [ScopeTable.exports,hg.scopes.exports scope hs] at hid
      exact hF.exported scope id hid
    · simp only [here,Scope.bound,hg.scopes.bindings scope hs (hF.static scope)] at hid
      exact (hF.bound scope entryPoint id hid).2 hroot
  obtain ⟨h1,h2,h3⟩ := namedExports_ok h (by simp) (by simpa using nodup_eraseDups _) hdecl (by simp)
  refine ⟨h1,h2,fun x hx => ?_⟩
  obtain ⟨⟨hlt,hop⟩,e,hk,hplain⟩ := h3 x hx
  obtain ⟨d,hk',hgd⟩ := hg.kind_function hlt hk
  refine ⟨e,hk,hplain,?_⟩
  have := hop d hk'
  rwa [FunctionDef.intrinsic?,hgd.body]

/-- The phases up to resolution give a well resolved program and its exports. -/
theorem wellResolved_of_checkSource (h : checkSource library file source initial = .ok exports p) :
    p.WellResolved ∧ p.ExportsOk exports := by
  have hscan : checkSource library file source = (do
      let scope ← scan library file source
      resolveProgram
      ofExcept ((← get).exportsOf scope)) := by
    simp only [checkSource,scan,bind_assoc,pure_bind]
  rw [hscan] at h
  obtain ⟨scope,p1,h1,h⟩ := bind_ok.mp h
  obtain ⟨hp,hs,hne⟩ := scan_ok h1
  obtain ⟨_,p2,h2,h⟩ := bind_ok.mp h
  obtain ⟨hm,hw⟩ := (hp.fresh.inv hp.hasBase).resolveProgram hp.fresh.idle (hp.fresh.arraysNamed hp.hasArrays) h2
  have h := get_bind_ok.mp h
  obtain ⟨hex,rfl⟩ := ofExcept_ok.mp h
  exact ⟨hw,exportsOf_ok hp.fresh hm.grows hs hne hex⟩

end Program

end FormCompiler
