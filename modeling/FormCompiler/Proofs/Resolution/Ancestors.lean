import FormCompiler.Proofs.Resolution.Ascents

/-! The tree of object types. `Extends` is the order a program declares; `Chain` lists what is above a
finished type. The kept chains are exactly these lists, so every question about ancestors is answered
by the order itself. -/

namespace FormCompiler

namespace EntityTable

/-- The types from a finished one up to a type without a parent, all of them finished. -/
inductive Chain (t : EntityTable) : EntityId → List EntityId → Prop
  | base {id d} : t.kind id = .object d → d.stage = .done → d.parent = none → Chain t id [id]
  | step {id d above l} : t.kind id = .object d → d.stage = .done → d.parent = some above →
      Chain t above l → Chain t id (id :: l)

/-- Parents are finished before their children name them. -/
def Founded (t : EntityTable) : Prop :=
  ∀ id d above, t.kind id = .object d → d.parent = some above → ∃ l, Chain t above l

variable {t : EntityTable} {id x : EntityId} {l m : List EntityId}

namespace Chain

section

variable (h : Chain t id l)
include h

theorem isDone : ∃ d, t.kind id = .object d ∧ d.stage = .done := by
  cases h with
  | base hk hd _ => exact ⟨_,hk,hd⟩
  | step hk hd _ _ => exact ⟨_,hk,hd⟩

theorem ascent : t.Ascent id l := by
  induction h with
  | base hk hd hp => exact .top hk hp (.inl hd)
  | step hk hd hp _ ih => exact .step hk hd hp ih

theorem unique (h' : Chain t id m) : l = m := h.ascent.unique h'.ascent

theorem nodup : l.Nodup := h.ascent.nodup

theorem length_le_size : l.length ≤ t.size := h.ascent.length_le_size

theorem lt_size : id.index < t.size := by
  obtain ⟨d,hk,_⟩ := h.isDone
  exact lt_size_of_kind (by simp [hk])

/-- A chain holds exactly what its first type extends. -/
theorem mem_iff : x ∈ l ↔ t.Extends id x := h.ascent.mem_iff

/-- Each type of a chain has a chain of its own. -/
theorem of_mem (hx : x ∈ l) : ∃ m, Chain t x m := by
  induction h with
  | base hk hd hp =>
    cases List.mem_singleton.mp hx
    exact ⟨_,.base hk hd hp⟩
  | step hk hd hp hc ih =>
    rcases List.mem_cons.mp hx with rfl | hx
    · exact ⟨_,.step hk hd hp hc⟩
    · exact ih hx

end

end Chain

theorem Founded.chain (h : t.Founded) {d : ObjectDef} (hk : t.kind id = .object d)
    (hd : d.stage = .done) : ∃ l, Chain t id l := by
  cases hp : d.parent with
  | none => exact ⟨_,.base hk hd hp⟩
  | some above =>
    obtain ⟨l,hl⟩ := h id d above hk hp
    exact ⟨_,.step hk hd hp hl⟩

theorem Founded.anchored (h : t.Founded) : t.Anchored := fun id d above hk hp =>
  (h id d above hk hp).imp fun _ hl => hl.ascent

end EntityTable

namespace Ancestry

open EntityTable

/-- Every kept chain is that of its type. -/
def Exact (t : EntityTable) (a : Ancestry) : Prop :=
  ∀ id l, a.chains.lookup id = some l → Chain t id l

variable {t : EntityTable} {a : Ancestry} {id : EntityId} {l : List EntityId}

theorem Exact.keeps (h : a.Exact t) : a.Keeps t := fun id l hl => (h id l hl).ascent

/-- What a question about a chain gives, and that it keeps the kept chains exact. -/
theorem chain_spec (hf : t.Founded) (ha : a.Exact t) (id : EntityId) :
    (a.chain t id).2.Exact t ∧ (∀ x, x ∈ (a.chain t id).1 ↔ t.Extends id x) ∧
      ∀ d, t.kind id = .object d → d.stage = .done → Chain t id (a.chain t id).1 := by
  have hdone : ∀ id d l, t.Ascent id l → t.kind id = .object d → d.stage = .done → Chain t id l := by
    intro id d l hl hk hd
    obtain ⟨m,hm⟩ := hf.chain hk hd
    exact hl.unique hm.ascent ▸ hm
  obtain ⟨hkept,⟨hmem,_⟩,hchain⟩ := chain_kept (fun _ _ h => Chain.ascent h) hdone hf.anchored ha id
  refine ⟨hkept,hmem,fun d hk hd => ?_⟩
  obtain ⟨l,hl⟩ := hf.chain hk hd
  exact hchain l hl.ascent ▸ hl

end Ancestry

end FormCompiler
