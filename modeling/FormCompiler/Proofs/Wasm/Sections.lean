import FormCompiler.Proofs.Wasm.Text

/-! What the sections of a binary say about functions. They are filled one by one, yet agree on the numbers: types,
imports, code, calls and exports all go by the place a function has in the order of the binary. -/

namespace FormCompiler.Wasm

open FlatInstr Instr List

/-! ### Calls -/

mutual

/-- The functions that an instruction calls, in the order of evaluation. -/
def Instr.calls : Instr → List Nat
  | .call function args => callsAll args ++ [function]
  | .localSet _ value | .eqz _ value | .br _ (some value) | .brIf _ value | .brTable _ _ value | .ret (some value)
  | .drop value | .structGet _ _ value | .refCast _ value | .arrayNewDefault _ value | .arrayLen value => value.calls
  | .binary _ _ left right | .arrayGet _ left right => left.calls ++ right.calls
  | .arraySet _ array index value => array.calls ++ index.calls ++ value.calls
  | .structNew _ parts | .arrayNewFixed _ parts | .block _ _ parts | .loop _ parts | .seq parts => callsAll parts
  | .cond _ test yes no => test.calls ++ callsAll yes ++ callsAll no
  | _ => []

def callsAll : List Instr → List Nat
  | [] => []
  | i :: is => i.calls ++ callsAll is

end

def FlatInstr.callee? : FlatInstr → Option Nat
  | .call function => some function
  | _ => none

/-- The calls of stack code are these, each with its number. -/
def CallsNumbered (indices : Array Nat) (calls : List Nat) (code : List FlatInstr) : Prop :=
  calls.map (indices[·]?) = (code.filterMap callee?).map some

variable {indices : Array Nat} {frames : Frames}

theorem callsNumbered_operator {i : Instr} {operands : List Instr} {last : FlatInstr} {code : List FlatInstr}
    (hi : i.operator? indices frames = some (operands, .ok last)) (h : CallsNumbered indices (callsAll operands) code) :
    CallsNumbered indices i.calls (code ++ [last]) := by
  unfold CallsNumbered at h ⊢
  rw [filterMap_append,map_append,← h]
  cases i with
  | call function args =>
    obtain ⟨rfl,ho⟩ := Prod.mk.inj (Option.some.inj hi)
    split at ho
    · cases ho
      simp [calls,callee?, *]
    · cases ho
  | block | loop | cond | seq => cases hi
  | binary | eqz =>
    obtain ⟨rfl,ho⟩ := Prod.mk.inj (Option.some.inj hi)
    split at ho <;> cases ho
    simp [calls,callsAll,callee?]
  | br label value =>
    obtain ⟨rfl,ho⟩ := Prod.mk.inj (Option.some.inj hi)
    obtain ⟨depth,_,hi⟩ := except_bind_ok.mp ho
    cases hi
    cases value <;> simp [calls,callsAll,callee?]
  | brIf =>
    obtain ⟨rfl,ho⟩ := Prod.mk.inj (Option.some.inj hi)
    obtain ⟨depth,_,hi⟩ := except_bind_ok.mp ho
    cases hi
    simp [calls,callsAll,callee?]
  | brTable =>
    obtain ⟨rfl,ho⟩ := Prod.mk.inj (Option.some.inj hi)
    obtain ⟨depths,_,hi⟩ := except_bind_ok.mp ho
    obtain ⟨depth,_,hi⟩ := except_bind_ok.mp hi
    cases hi
    simp [calls,callsAll,callee?]
  | ret value =>
    cases hi
    cases value <;> simp [calls,callsAll,callee?]
  | _ =>
    cases hi
    simp [calls,callsAll,callee?]

theorem callsNumbered_flatten : (∀ {frames : Frames} {i : Instr} {code}, i.flatten indices frames = .ok code →
    CallsNumbered indices i.calls code) ∧ ∀ {frames : Frames} {is : List Instr} {code},
      flattenAll indices frames is = .ok code → CallsNumbered indices (callsAll is) code := by
  have hadd : ∀ {calls more : List Nat} {c d : List FlatInstr}, CallsNumbered indices calls c →
      CallsNumbered indices more d → CallsNumbered indices (calls ++ more) (c ++ d) := by
    intro calls more c d hc hd
    simp only [CallsNumbered,map_append,filterMap_append] at hc hd ⊢
    rw [hc,hd]
  refine flatten_induction (P := fun _ i => CallsNumbered indices i.calls)
    (Q := fun _ is => CallsNumbered indices (callsAll is)) (fun _ => rfl) hadd callsNumbered_operator (fun h => ?_) (fun h => ?_)
    (fun h => h) (@fun _ _ _ _ no _ _ _ ht hy hn => ?_)
  · simpa [CallsNumbered,calls,callee?,filterMap_cons] using h
  · simpa [CallsNumbered,calls,callee?,filterMap_cons] using h
  · have h := hadd (hadd ht hy) hn
    split
    · rename_i hno
      cases isEmpty_iff.mp hno
      simpa [CallsNumbered,calls,callsAll,callee?,filterMap_cons] using hadd ht hy
    · simpa [CallsNumbered,calls,callee?,filterMap_cons] using h

/-! ### Sections -/

/-- The entries of the sections of a binary. -/
structure Sections where
  /-- The types of the recursive group, and those after it. -/
  group : List Bytes
  signatures : List Bytes
  imports : List Bytes
  functions : List Bytes
  globals : List Bytes
  exports : List Bytes
  code : List Bytes

namespace Sections

variable (s : Sections)

def bytes : Bytes :=
  [0x00,0x61,0x73,0x6d,0x01,0x00,0x00,0x00]
    ++ sectionOf 1 (vector ((if s.group.isEmpty then [] else [0x4e :: vector s.group]) ++ s.signatures))
    ++ Module.optionalSection 2 s.imports
    ++ sectionOf 3 (vector s.functions)
    ++ Module.optionalSection 6 s.globals
    ++ sectionOf 7 (vector s.exports)
    ++ sectionOf 10 (vector s.code)

def types : List Bytes := s.group ++ s.signatures

/-- The functions in the order of their numbers: imports, then functions with their types and their code. -/
def entries : List (Bytes ⊕ Bytes × Bytes) := s.imports.map .inl ++ (s.functions.zip s.code).map .inr

end Sections

namespace Module

/-- What stands in the binary for the function at a place. -/
def entryOf (m : Module) : Nat × Func → Bytes ⊕ Bytes × Bytes
  | (i, f) =>
    match f.host? with
    | some source => .inl (nameBytes source.module ++ nameBytes source.name ++ 0x00 :: Leb128.unsigned (m.typeOffset + i))
    | none => .inr (Leb128.unsigned (m.typeOffset + i), (m.codeEntry f).toOption.getD [])

variable {m : Module} {bytes : Bytes} {n : Nat}

theorem sections_of_encode (h : m.encode = .ok bytes) : ∃ s : Sections, s.bytes = bytes ∧
    s.group = m.types.toList.map TypeDef.bytes ∧ s.signatures = m.funcs.toList.map Func.typeBytes ∧
    s.exports = m.exportEntries ∧ s.entries = m.arranged.map m.entryOf ∧ s.functions.length = s.code.length ∧
    s.globals.map .ok = m.globals.toList.map m.globalEntry := by
  obtain ⟨globals,hglobals,h⟩ := except_bind_ok.mp h
  obtain ⟨code,hcode,h⟩ := except_bind_ok.mp h
  cases h
  have hcode : code = (m.numbered.filter (·.2.host?.isNone)).map fun x => (m.codeEntry x.2).toOption.getD [] := by
    have h := congrArg (List.map fun x => x.toOption.getD []) (mapM_ok.mp hcode)
    rw [← map_numbered,filter_map,map_map,map_map,map_map] at h
    exact (map_id _).symm.trans h.symm
  have himports : m.importEntries.map .inl = (m.numbered.filter (·.2.host?.isSome)).map m.entryOf := by
    rw [importEntries,map_filterMap,← filterMap_eq_map',filterMap_filter]
    refine filterMap_congr fun x _ => ?_
    cases hx : x.2.host? <;> simp [entryOf,hx]
  have hfunctions : m.functionEntries = (m.numbered.filter (·.2.host?.isNone)).map fun x =>
      Leb128.unsigned (m.typeOffset + x.1) := by
    rw [← filterMap_eq_map',filterMap_filter]
    rfl
  refine ⟨⟨m.types.toList.map TypeDef.bytes,m.funcs.toList.map Func.typeBytes,m.importEntries,m.functionEntries,globals,
    m.exportEntries,code⟩,by simp [Sections.bytes,typeSection],rfl,rfl,rfl,?_,by rw [hcode,hfunctions]; simp,
    (mapM_ok.mp hglobals).symm⟩
  rw [Sections.entries,hcode,hfunctions,zip_map',map_map,himports,arranged,map_append]
  congr 1
  refine map_congr_left fun x hx => ?_
  have hhost : x.2.host? = none := by simpa using (mem_filter.mp hx).2
  simp [entryOf,hhost]

/-- Functions of the host are numbered first and otherwise in order; by these numbers the binary describes, calls and
exports them. -/
theorem binary_numbering (m : Module) : m.binaryIndices.Perm (List.range m.funcs.size) ∧
    (∀ (i j : Nat) f g n k, m.funcs[i]? = some f → m.funcs[j]? = some g → m.binaryIndices[i]? = some n →
      m.binaryIndices[j]? = some k → (n < k ↔ Precedes (i, f) (j, g))) ∧
    ∀ bytes, m.encode = .ok bytes → ∃ s : Sections, s.bytes = bytes ∧
      s.entries.length = m.funcs.size ∧ s.functions.length = s.code.length ∧
      (∀ (i : Nat) f n, m.funcs[i]? = some f → m.binaryIndices[i]? = some n → ∃ type,
        s.types[type]? = some f.typeBytes ∧
        (∀ source, f.host? = some source → s.entries[n]? = some (.inl
          (nameBytes source.module ++ nameBytes source.name ++ 0x00 :: Leb128.unsigned type))) ∧
        (f.host? = none → ∃ code entry, s.entries[n]? = some (.inr (Leb128.unsigned type, entry)) ∧
          m.codeEntry f = .ok entry ∧ m.flatBody f = .ok code ∧
          CallsNumbered m.binaryIndices.toArray (callsAll f.body) code)) ∧
      (∀ entry, entry ∈ s.exports ↔ ∃ (i : Nat) (f : Func) (n : Nat) (name : String), m.funcs[i]? = some f ∧
        m.binaryIndices[i]? = some n ∧ f.exportName = some name ∧ entry = nameBytes name ++ 0x00 :: Leb128.unsigned n) ∧
      ∀ g ∈ m.globals, ∃ code, m.flatGlobal g = .ok code ∧ CallsNumbered m.binaryIndices.toArray g.init.calls code := by
  refine ⟨m.binaryIndices_perm,fun i j f g n k => binaryIndices_lt_iff,fun bytes h => ?_⟩
  obtain ⟨s,hbytes,hgroup,hsignatures,hexports,hentries,hcode,hglobals⟩ := sections_of_encode h
  refine ⟨s,hbytes,by rw [hentries,length_map,length_arranged],hcode,fun i f n hf hn => ?_,fun entry => ?_,
    fun g hg => ?_⟩
  · have hentry : s.entries[n]? = some (m.entryOf (i, f)) := by
      rw [hentries,getElem?_map,arranged_get hf hn]
      rfl
    refine ⟨m.typeOffset + i,?_,fun source hhost => by simpa [entryOf,hhost] using hentry,fun hhost => ?_⟩
    · rw [Sections.types,hgroup,hsignatures,getElem?_append_right (by simp [typeOffset])]
      simp [typeOffset,hf]
    · obtain ⟨code,hcode,_⟩ := flatBody_of_encode h (Array.mem_of_getElem? hf) hhost
      have hok : m.codeEntry f = .ok ((m.codeEntry f).toOption.getD []) := by
        rw [codeEntry,hcode]
        rfl
      exact ⟨code,_,by simpa [entryOf,hhost] using hentry,hok,hcode,callsNumbered_flatten.2 hcode⟩
  · simp only [hexports,exportEntries,mem_filterMap,Option.map_eq_some_iff,Prod.exists]
    constructor
    · rintro ⟨f,n,hmem,name,hname,rfl⟩
      obtain ⟨i,hi⟩ := mem_iff_getElem?.mp hmem
      obtain ⟨hf,hn⟩ := getElem?_zip_eq_some.mp hi
      exact ⟨i,f,n,name,by simpa using hf,hn,hname,rfl⟩
    · rintro ⟨i,f,n,name,hf,hn,hname,rfl⟩
      have hi : (m.funcs.toList.zip m.binaryIndices)[i]? = some (f, n) :=
        getElem?_zip_eq_some.mpr ⟨by simpa using hf,hn⟩
      exact ⟨f,n,mem_of_getElem? hi,name,hname,rfl⟩
  · obtain ⟨_,_,hentry⟩ := mem_map.mp (hglobals ▸ mem_map_of_mem (Array.mem_toList_iff.mpr hg))
    obtain ⟨code,hcode,_⟩ := except_bind_ok.mp hentry.symm
    exact ⟨code,hcode,callsNumbered_flatten.1 hcode⟩

private def interleaved : Module where
  funcs := #[{ name := "run", params := [], result := some .i32, body := [.call 1 [.call 2 []]], exportName := some "run" },
    { name := "log", params := [.i32], result := some .i32, host? := some ⟨"env","log"⟩ },
    { name := "next", params := [], result := some .i32, body := [.call 3 []] },
    { name := "now", params := [], result := some .i32, host? := some ⟨"env","now"⟩ }]

theorem binary_numbering_interleaved : interleaved.binaryIndices = [2,0,3,1] ∧ ∃ bytes s, interleaved.encode = .ok bytes ∧
    Sections.bytes s = bytes ∧ s.entries.length = 4 ∧ nameBytes "run" ++ [0x00,0x02] ∈ s.exports := by
  obtain ⟨bytes,h⟩ : Succeeds interleaved.encode := .of_isOk (by decide +kernel)
  have hindices : interleaved.binaryIndices = [2,0,3,1] := by decide
  obtain ⟨s,hs,hlength,_,_,hexports,_⟩ := (binary_numbering interleaved).2.2 bytes h
  refine ⟨hindices,bytes,s,h,hs,hlength,(hexports _).mpr ⟨0,_,2,"run",rfl,by rw [hindices]; rfl,rfl,?_⟩⟩
  decide +kernel

end Module

end FormCompiler.Wasm
