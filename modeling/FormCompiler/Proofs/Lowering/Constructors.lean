import FormCompiler.Proofs.Semantics.Dispatch

/-! Object literals: which of them are accepted, and the code that builds the object. -/

namespace FormCompiler

open Wasm (Instr)

namespace Solver

open Check

variable {S : Solver} {scope : ScopeId} {fields : List Field} {given : List (String × ExprId)} {p q : Program}
  {fits : List Bool}

/-- Resolves all initialisers in turn and says of each whether it is assignable to the field of its name. -/
def fitting (S : Solver) (scope : ScopeId) (fields : List Field) : List (String × ExprId) → Check (List Bool)
  | [] => return []
  | (name, value) :: rest => do
    let type ← S.expr value scope
    let fit ←
      match fields.find? (·.name == name) with
      | some field => isAssignable type field.type
      | none => pure false
    return fit :: (← fitting S scope fields rest)

theorem initialisers_iff (h : S.fitting scope fields given p = .ok fits q) :
    (∃ r, S.initialisers scope fields given p = .ok () r) ↔
      given.map (·.1) ⊆ fields.map (·.name) ∧ ∀ fit ∈ fits, fit = true := by
  induction given generalizing p fits with
  | nil =>
    cases h
    exact ⟨fun _ => by simp,fun _ => ⟨_,rfl⟩⟩
  | cons head given ih =>
    obtain ⟨name,value⟩ := head
    obtain ⟨type,p1,h1,h2⟩ := bind_ok.mp h
    unfold Solver.initialisers
    cases hf : fields.find? (·.name == name) with
    | none =>
      have hname : name ∉ fields.map (·.name) := by simpa using hf
      simp [bind_ok,hname]
    | some field =>
      have hname : name ∈ fields.map (·.name) := by
        simpa using ⟨field,List.mem_of_find?_eq_some hf,by simpa using List.find?_some hf⟩
      rw [hf] at h2
      obtain ⟨fit,p2,h3,h4⟩ := bind_ok.mp h2
      obtain ⟨rest,h5,rfl⟩ := bind_pure_ok.mp h4
      cases fit <;> simp [bind_ok,expectAssignable,h1,h3,ih h5,hname]

/-- A literal that names no field twice is accepted just when it names all fields and no others and each initialiser
fits: among different names, as many as there are fields leave out none. -/
theorem construct_iff {object : EntityId} {literal : ExprId} {location : Location} (hn : (given.map (·.1)).Nodup)
    (h : S.fitting scope (p.layout object) given p = .ok fits q) :
    (∃ r, S.construct scope object literal given location p = .ok () r) ↔
      (given.map (·.1)).Perm ((p.layout object).map (·.name)) ∧ ∀ fit ∈ fits, fit = true := by
  have hrun : (∃ r, S.construct scope object literal given location p = .ok () r) ↔
      (∃ r, S.initialisers scope (p.layout object) given p = .ok () r) ∧ given.length = (p.layout object).length := by
    unfold Solver.construct
    by_cases hlength : given.length = (p.layout object).length
    · simp only [bind_ok,object?_ok,Program.layout] at hlength ⊢
      simpa [hlength] using ⟨fun h => h.elim fun _ h => h,fun h => ⟨(),h⟩⟩
    · simp only [bind_ok,object?_ok,Program.layout] at hlength ⊢
      simp [hlength,bind_ok]
  rw [hrun,initialisers_iff h,and_right_comm]
  refine and_congr_left fun _ => ⟨?_,fun hperm => ⟨hperm.subset,?_⟩⟩
  · rintro ⟨hsub,hlength⟩
    exact (hn.subperm hsub).perm_of_length_le (by simp [hlength])
  · simpa using hperm.length_eq

end Solver

open Lower Semantics

/-- What becomes of constructor calls. -/
structure Lower.Constructs (p : Program) (E : Emission) : Prop where
  /-- A literal that was read, whose initialisers resolve, is accepted just when it names the fields of the layout in
  some order and each initialiser is assignable to its field. -/
  accepted : ∀ start : Program, start.Scanned → ∀ literal given, (start.exprs.get literal).shape = .object given →
    ∀ (S : Solver) (scope : ScopeId) object location q fits r,
      S.fitting scope (q.layout object) given q = .ok fits r →
      ((∃ t, S.construct scope object literal given location q = .ok () t) ↔
        (given.map (·.1)).Perm ((q.layout object).map (·.name)) ∧ ∀ fit ∈ fits, fit = true)
  /-- Its code makes the struct of the object from the global of its ancestors and, for each field of the layout, the
  initialiser of that name. -/
  lowered : ∀ f n d first root func id name literal typeArgs object, E.funcs.lookup f = some n →
    p.entities.kind f = .function d → d.body = .expr first root → E.module.funcs[n]? = some func → d.Covers id →
    (p.exprs.get id).shape = .call name [literal] typeArgs (some (.construct object)) →
    ∃ given ancestors L code struct chain codes, (p.exprs.get literal).shape = .object given ∧
      p.entities.Chain object ancestors ∧ Compiled p E d root func L code ∧ E.structs.lookup object = some struct ∧
      E.module.globals[chain]? = some (chainGlobalOf p 0 (object, ancestors)) ∧
      List.Forall₂ (fun field code => ∃ value, given.lookup field.name = some value ∧ Stands p E L value code)
        (p.layout object) codes ∧
      Stands p E L id (.structNew struct (.globalGet chain :: codes)) ∧
      ∃ i ∈ func.body, (Instr.structNew struct (.globalGet chain :: codes)).Within i

/-- Constructor calls are exact: nothing is missing, given twice or unknown, and all is put in its place. -/
theorem constructors_exact {library : List SourceFile} {file source : String} {exports : List (String × EntityId)}
    {p : Program} {E : Emission} (hc : checkSource library file source Program.initial = .ok exports p)
    (hE : Lower.program exports p {} = .ok ((), E)) : Lower.Constructs p E := by
  obtain ⟨hw,he⟩ := Program.wellResolved_of_checkSource hc
  have hL := Lower.lowered_of_program hw he hE
  refine ⟨fun start hs literal given hg S scope object location q fits r h => ?_,?_⟩
  · exact Solver.construct_iff (((hs.fresh.nodes literal).raw start.entities).names given hg) h
  intro f n d first root func id name literal typeArgs object hn hk hb hf hid hshape
  obtain ⟨⟨τ,hτ⟩,L,code,hcompiled,hG,op,hstands,hin⟩ := node_lowered hw he hL hn hk hb hf hid (by simp [hshape])
  have hnode := stands_node hstands hτ
  rw [hshape] at hnode
  cases hnode with
  | @construct _ _ _ _ given chain struct codes hgiven hchain hstruct hcodes =>
    have hpop := hG.objects.populated hstruct
    obtain ⟨ancestors,ha⟩ := (hpop.chains object chain).mp hchain
    have hglobal : E.module.globals[chain]? = some (chainGlobalOf p 0 (object, ancestors)) := by
      rw [← Array.getElem?_toList,hpop.globals,List.getElem?_map,ha]
      rfl
    exact ⟨given,ancestors,L,code,struct,chain,codes,hgiven,(mem_objectsInOrder hw.inv).mp (List.mem_of_getElem? ha),hcompiled,
      hstruct,hglobal,hcodes,hstands,hin⟩

private def reordered : String := "(obj A (: x i32))(obj B (extends A) (: y i32))" ++
  "(pub (fn f (parameters) (x (B (object (: y 1) (: x 2))))))"

theorem constructors_exact_sample : ∃ exports p E, checkSource [] "main.vast" reordered Program.initial =
    .ok exports p ∧ Lower.program exports p {} = .ok ((), E) ∧ Lower.Constructs p E := by
  obtain ⟨artifact,h⟩ : Succeeds (compile [] "main.vast" reordered) := .of_isOk (by decide +kernel)
  obtain ⟨p,exports,E,_,_,_,_,hc,hE⟩ := lowered_of_compile h
  exact ⟨exports,p,E,hc,hE,constructors_exact hc hE⟩

end FormCompiler
