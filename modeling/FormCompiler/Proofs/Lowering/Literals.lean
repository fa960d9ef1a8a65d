import FormCompiler.Proofs.Semantics.Dispatch
import FormCompiler.Proofs.Syntax.Forms

/-! Integers on their way from text to code: what a token writes in decimal is the constant that the machine is given. -/

namespace FormCompiler

open Lower Semantics
open Wasm (Instr)

def Literal.int? : Literal → Option Int
  | .i32 value => some value.toInt
  | .i64 value => some value.toInt
  | _ => none

def Wasm.Instr.int? : Instr → Option Int
  | .i32Const value => some value.toInt
  | .i64Const value => some value.toInt
  | _ => none

private theorem Lower.int?_literal {l : Literal} {v : Int} (h : l.int? = some v) : (literal l).int? = some v := by
  cases l with
  | i32 | i64 => exact h
  | _ => cases h

namespace NumberText

variable {n : NumberText}

/-- An integer is written in decimal, with separators anywhere after its first digit. -/
theorem int_eq (hk : n.kind = .integer) :
    n.int = (if n.sign = ['-'] then -1 else 1) * (Nat.ofDigitChars 10 (n.whole.filter (· != '_')) 0 : Int) := by
  have hpart : n.part = [] := by
    unfold kind at hk
    split at hk
    · rename_i h
      exact h.1
    · cases hk
  have hfilter : n.whole.filter Char.isDigit = n.whole.filter (· != '_') := by
    refine List.filter_congr fun c hc => ?_
    have := n.whole_digits.all c hc
    by_cases h : c = '_'
    · subst h
      rfl
    · rw [bne_iff_ne.mpr h]
      simpa [Token.isNumeral,h] using this
  have hdigits : n.digits = Nat.ofDigitChars 10 (n.whole.filter (· != '_')) 0 := by
    rw [digits,hpart,List.append_nil,Numeral.value,hfilter]
    rfl
  unfold int negative
  rw [hdigits]
  by_cases h : n.sign = ['-'] <;> simp [h]

private theorem int?_integer (h : n.Fits) :
    n.integer.int? = some n.int ∧ n.integer.prim = if n.suffix = "i64" then .i64 else .i32 := by
  unfold Fits bound at h
  unfold integer
  split at h
  · rename_i hs
    rw [if_pos hs,if_pos hs]
    exact ⟨congrArg some (Int64.toInt_ofInt_of_le h.1 h.2),rfl⟩
  · rename_i hs
    rw [if_neg hs,if_neg hs]
    exact ⟨congrArg some (Int32.toInt_ofInt_of_le h.1 h.2),rfl⟩

end NumberText

private theorem Token.Spelled.integer {text : List Char} (h : Spelled .integer text) :
    ∃ n : NumberText, n.kind = .integer ∧ text = n.text := by
  generalize hk : TokenKind.integer = kind at h
  cases h with
  | number n => exact ⟨n,rfl,rfl⟩
  | _ => cases hk

namespace Lower

variable {p : Program} {E : Emission} {L : Layout} {part : ExprId → Instr → Prop} {τ σ : Ty} {op : Instr} {m : Match}

private theorem getElem?_caseTests {type : Wasm.NumType} {literals : List Literal} {k : Nat} {l : Literal}
    (h : literals[k]? = some l) (index : Nat) : (caseTests type index literals)[k]? =
      some (.cond none (.binary .eq type (.localGet 0) (literal l)) [.ret (some (.i32Const (Int32.ofNat (index + k))))] []) := by
  induction literals generalizing index k with
  | nil => cases h
  | cons first literals ih =>
    cases k with
    | zero =>
      cases h
      rfl
    | succ k =>
      rw [caseTests,List.getElem?_cons_succ,ih h,Nat.add_right_comm,Nat.add_assoc]

/-- A literal among the cases of a match is tested in its place by a function that the code of the match calls. -/
theorem NodeCode.tests (h : NodeCode p E L part τ (.select m) op) (ht : p.MatchTyped m σ τ) {k : Nat} {arm : Arm}
    {l : Literal} (harm : m.arms[k]? = some arm) (hl : arm.pattern = .literal l) :
    ∃ finder operand func type, (Instr.call finder [.localGet operand]).Within op ∧ E.module.funcs[finder]? = some func ∧
      func.body[k]? = some (.cond none (.binary .eq type (.localGet 0) (Lower.literal l))
        [.ret (some (.i32Const (Int32.ofNat (1 + k))))] []) := by
  cases h with
  | @select _ _ operand value exit result _ _ _ _ _ _ _ hdispatch =>
    cases hdispatch with
    | types hguard =>
      -- a match on types has an operand that no literal has the type of
      obtain ⟨object,rfl⟩ := ht.guard hguard
      cases ht.arms arm (List.mem_of_getElem? harm) with
      | literal _ hσ => cases hσ
      | type hpattern => cases hl.symm.trans hpattern
    | @values _ type literals finder func fallback labels bodies default _ _ _ hliterals hfinder hfinds =>
      have hk : literals[k]? = some l := by
        have := congrArg (·[k]?) hliterals
        simp only [List.getElem?_map,harm,Option.map_some,hl] at this
        obtain ⟨_,h,hl⟩ := Option.map_eq_some_iff.mp this.symm
        cases hl
        exact h
      refine ⟨finder,operand,func,type,?_,hfinder,hfinds.body ▸ getElem?_caseTests hk 1⟩
      let choice : Instr := .brTable (fallback :: labels) fallback (.call finder [.localGet operand])
      have hcall : (Instr.call finder [.localGet operand]).Within choice := .part (.head _)
      obtain ⟨i,hi,hin⟩ : ∃ i ∈ nest exit result [choice] (labels.zip bodies), Instr.Within _ i :=
        within_nest (.inl ⟨_,.head _,hcall⟩)
      have hblock : (Instr.call finder [.localGet operand]).Within
          (.block fallback none (nest exit result [choice] (labels.zip bodies))) := hin.of_part hi
      have houter : (Instr.call finder [.localGet operand]).Within (.block exit result
          [.block fallback none (nest exit result [choice] (labels.zip bodies)),default]) := hblock.of_part (.head _)
      exact houter.of_part (.tail _ (.head _))

end Lower

/-- An integer token is read as the literal of the value it writes in decimal just when the value fits the type that
its suffix names; otherwise it is refused. The literal is kept where it stands for an expression or among the cases of
a match, and the constant that is emitted for it has the same value. -/
theorem integers_keep_value {library : List SourceFile} {file source : String} {exports : List (String × EntityId)}
    {p : Program} {E : Emission} (hc : checkSource library file source Program.initial = .ok exports p)
    (hE : Lower.program exports p {} = .ok ((), E)) :
    (∀ name text tokens, Token.scan name text = .ok tokens → ∀ t ∈ tokens, t.kind = .integer →
      ∃ n : NumberText, n.kind = .integer ∧ t.text = n.text) ∧
    (∀ (n : NumberText) (t : Token), n.kind = .integer → t.kind = .integer → t.text = n.text →
      n.int = (if n.sign = ['-'] then -1 else 1) * (Nat.ofDigitChars 10 (n.whole.filter (· != '_')) 0 : Int) ∧ ∀ loc,
        (n.Fits → ∃ l, Form.ReaderState.atom loc t = .ok (.literal l loc) ∧ l.int? = some n.int ∧
          l.prim = if n.suffix = "i64" then .i64 else .i32) ∧
        (¬ n.Fits → ∃ fault, Form.ReaderState.atom loc t = .error (.here loc (.syntactic fault)))) ∧
    (∀ l loc q r, (∀ id, Body.ofForm (.literal l loc) q = .ok id r → (r.exprs.get id).shape = .literal l) ∧
      ∀ place pattern, Body.pattern place (.literal l loc) q = .ok pattern r → pattern = .literal l) ∧
    ∀ f n d first root func id, E.funcs.lookup f = some n → p.entities.kind f = .function d →
      d.body = .expr first root → E.module.funcs[n]? = some func → d.Covers id →
      (∀ l v, (p.exprs.get id).shape = .literal l → l.int? = some v → ∃ L code, Compiled p E d root func L code ∧
        ∃ op, Stands p E L id op ∧ (∃ i ∈ func.body, op.Within i) ∧ op.int? = some v) ∧
      ∀ m, (p.exprs.get id).shape = .select m → ∃ L code, Compiled p E d root func L code ∧
        ∃ op, Stands p E L id op ∧ (∃ i ∈ func.body, op.Within i) ∧
          ∀ (k : Nat) (arm : Arm) l v, m.arms[k]? = some arm → arm.pattern = .literal l → l.int? = some v →
            ∃ finder operand tests type, ∃ c : Instr, (Instr.call finder [.localGet operand]).Within op ∧
              E.module.funcs[finder]? = some tests ∧ tests.body[k]? = some (.cond none
                (.binary .eq type (.localGet 0) c) [.ret (some (.i32Const (Int32.ofNat (1 + k))))] []) ∧
              c.int? = some v := by
  obtain ⟨hw,he⟩ := Program.wellResolved_of_checkSource hc
  have hL := Lower.lowered_of_program hw he hE
  refine ⟨fun name text tokens h t ht hk => ?_,fun n t hn hk ht => ⟨NumberText.int_eq hn,fun loc => ?_⟩,?_,?_⟩
  · exact (hk ▸ Token.spelled_of_scan h t ht).integer
  · have hatom : Form.ReaderState.atom loc t = Form.ReaderState.constant loc (Numeral.ofText n.text).integer? := by
      simp only [Form.ReaderState.atom,hk,ht]
    refine ⟨fun hfits => ⟨n.integer,?_,NumberText.int?_integer hfits⟩,fun hfits => ?_⟩
    · rw [hatom,NumberText.integer?_ok hn hfits]
      rfl
    · obtain ⟨fault, -,hfault⟩ := NumberText.integer?_error hn hfits
      exact ⟨fault,by rw [hatom,hfault]; rfl⟩
  · refine fun l loc q r => ⟨fun id h => ?_,fun place pattern h => ?_⟩
    · cases h
      exact congrArg Expr.shape (Arena.get_alloc_self ..)
    · cases h
      rfl
  · intro f n d first root func id hn hk hb hf hid
    refine ⟨fun l v hshape hv => ?_,fun m hshape => ?_⟩
    all_goals
      obtain ⟨⟨τ,hτ⟩,L,code,hcompiled, -,op,hstands,hin⟩ := node_lowered hw he hL hn hk hb hf hid (by simp [hshape])
      have hnode := stands_node hstands hτ
      have htyped := (hw.inv.nodes id τ hτ).1
      rw [hshape] at hnode htyped
      refine ⟨L,code,hcompiled,op,hstands,hin,?_⟩
    · cases hnode
      exact int?_literal hv
    · intro k arm l v harm hl hv
      cases htyped with
      | select hmatch =>
        obtain ⟨finder,operand,tests,type,hcall,hfinder,htest⟩ := hnode.tests hmatch harm hl
        exact ⟨finder,operand,tests,type,literal l,hcall,hfinder,htest,int?_literal hv⟩

private def leastText : NumberText where
  sign := ['-']
  whole := "0_2147483648".toList
  part := []
  suffix := "i32"
  sign_mem := by decide
  whole_digits := ⟨List.all_eq_true.mp rfl,'0',rfl,rfl⟩
  part_digits := .inl rfl
  suffix_mem := by decide
  suffix_float h := absurd rfl h

theorem integers_keep_value_sample : ∃ exports p E, checkSource [] "main.vast" literalSource Program.initial =
    .ok exports p ∧ Lower.program exports p {} = .ok ((), E) ∧ ∀ t : Token, t.kind = .integer →
      t.text = "-0_2147483648i32".toList → ∀ loc, ∃ l, Form.ReaderState.atom loc t = .ok (.literal l loc) ∧
        l.int? = some (-2147483648) ∧ l.prim = .i32 := by
  obtain ⟨artifact,h⟩ : Succeeds (compile [] "main.vast" literalSource) := .of_isOk (by decide +kernel)
  obtain ⟨p,exports,E,_,_,_,_,hc,hE⟩ := lowered_of_compile h
  refine ⟨exports,p,E,hc,hE,fun t hk ht loc => ?_⟩
  exact (((integers_keep_value hc hE).2.1 leastText t (by decide) hk ht).2 loc).1 ⟨by decide,by decide⟩

end FormCompiler
