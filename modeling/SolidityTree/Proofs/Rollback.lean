import SolidityTree.Proofs.Sessions

/-!
# Rollback

A transaction notes what is registered, and nothing else.  So a rollback knows which nodes to forget
and which parent marks have come to name no node, but it does not know which nodes have got children
in the meantime: a node that stays goes on to list the children that are gone.  After a session of
proper steps that is the only way in which a rollback can leave an inconsistent forest
(`consistent_rollback_session_iff`).

What `Forest.rollback` needs of the session is that the transaction is still the innermost one
(`Noted`).  If the session forgets no node, the nodes after the rollback are those that were there
before (`Journaled`, `contains_rollback_session_iff`).
-/

namespace SolidityTree

namespace Forest

variable {f g : Forest} {k : NodeId} {made : List NodeId} {last : NodeId} {ran : Bool}
  {outer : List Transaction}

/-! ### What is found after a rollback -/

theorem rollback_eq (h : g.transactions = ⟨made, last, ran⟩ :: outer) :
    g.rollback = { (g.erase made).clearParents with
      lastId := last
      overrun := ran
      transactions := outer } := by
  rw [rollback, h]

theorem get?_rollback (h : g.transactions = ⟨made, last, ran⟩ :: outer) :
    g.rollback.get? k = ((g.erase made).get? k).map fun n =>
      if n.parent?.all (g.erase made).contains then n else { n with parent? := none } := by
  rw [rollback_eq h]
  exact get?_clearParents

theorem contains_rollback (h : g.transactions = ⟨made, last, ran⟩ :: outer) :
    g.rollback.contains k ↔ k ∉ made ∧ g.contains k := by
  rw [contains_iff_get?, get?_rollback h, ← contains_erase, contains_iff_get?]
  simp

theorem stamp?_rollback (h : g.transactions = ⟨made, last, ran⟩ :: outer) :
    g.rollback.stamp? k = if k ∈ made then none else g.stamp? k := by
  rw [← stamp?_erase, stamp?, get?_rollback h, stamp?]
  cases (g.erase made).get? k with
  | none => rfl
  | some n => simp only [Option.map_some]; split <;> rfl

theorem children_rollback (h : g.transactions = ⟨made, last, ran⟩ :: outer) :
    g.rollback.children k = if k ∈ made then [] else g.children k := by
  rw [← children_erase, children, get?_rollback h, children]
  cases (g.erase made).get? k with
  | none => rfl
  | some n => simp only [Option.map_some]; split <;> rfl

/-- The marks of the nodes that stay are cleared if they name a node that is gone. -/
theorem Consistent.parent?_rollback (hg : g.Consistent)
    (h : g.transactions = ⟨made, last, ran⟩ :: outer) :
    g.rollback.parent? k =
      if k ∈ made then none else (g.parent? k).filter fun p => ¬ p ∈ made := by
  have herase : (g.erase made).get? k = if k ∈ made then none else g.get? k := get?_erase made
  rw [parent?, get?_rollback h, herase]
  by_cases hk : k ∈ made
  · simp [hk]
  · -- the parent was registered, so it is gone exactly if it was noted
    rw [if_neg hk, if_neg hk, parent?]
    cases hn : g.get? k with
    | none => rfl
    | some n =>
      cases hp : n.parent? with
      | none => simp [hp]
      | some p =>
        have hreg : g.contains p := hg.contains_parent (by rw [parent?_of_get? hn, hp])
        have hmem : (g.erase made).contains p = true ↔ p ∉ made := by
          rw [contains_erase]
          simp [hreg]
        by_cases hpm : p ∈ made
        · have hgone : (g.erase made).contains p = false := by simpa [hpm] using hmem
          simp [hp, hpm, hgone, Option.filter]
        · have hstays : (g.erase made).contains p = true := hmem.2 hpm
          simp [hp, hpm, hstays, Option.filter]

/-- A rollback leaves a consistent forest consistent exactly if every node that lists a node noted
in the transaction is noted in it, too. -/
theorem Consistent.rollback_iff (hg : g.Consistent)
    (h : g.transactions = ⟨made, last, ran⟩ :: outer) :
    g.rollback.Consistent ↔ ∀ p c, c ∈ g.children p → c ∈ made → p ∈ made :=
  hg.prune_iff (· ∈ made) (by rw [rollback_eq h]; rfl) (fun _ => stamp?_rollback h)
    (fun _ => children_rollback h) fun _ => hg.parent?_rollback h

/-! ### The transaction of a session -/

/-- The transaction that was begun in `f` is the innermost one. -/
def Noted (f g : Forest) : Prop :=
  ∃ made, g.transactions = ⟨made, f.lastId, f.overrun⟩ :: f.transactions

theorem noted_begin (f : Forest) : Noted f f.begin := ⟨[], rfl⟩

theorem transactions_register {n : Node} {g' : Forest} (h : g.register n = .ok g') :
    g'.transactions = note n.id g.transactions := by
  obtain ⟨-, -, rfl⟩ := register_eq_ok h
  exact transactions_insert n

theorem kept_noted (f : Forest) : Kept (Noted f) true where
  nextId h := h
  register := by
    rintro g g' n ⟨made, hmade⟩ h
    exact ⟨n.id :: made, by rw [transactions_register h, hmade]; rfl⟩
  sameNodes := by
    rintro g g' ⟨made, hmade⟩ h
    exact ⟨made, by rw [h.transactions_eq, hmade]⟩
  forget := by
    rintro - g g' ⟨made, hmade⟩ - - h
    exact ⟨made, by rw [h, hmade]⟩

theorem Consistent.begin (hf : f.Consistent) : f.begin.Consistent := hf.of_get? rfl fun _ => rfl

/-- **A rollback after a session of proper steps leaves a consistent forest exactly if** no node
that stays lists a node that is gone. -/
theorem consistent_rollback_session_iff (hf : f.Consistent) {steps : List Step}
    (hproper : ∀ s ∈ steps, s.Proper) :
    (session steps f.begin).rollback.Consistent ↔
      ∀ p, (session steps f.begin).rollback.contains p →
        ∀ c ∈ (session steps f.begin).children p, (session steps f.begin).rollback.contains c := by
  obtain ⟨hg, made, hmade⟩ := session_induction (kept_noted f) hproper (fun _ _ _ => rfl) hf.begin
    (noted_begin f)
  -- both conditions speak of the nodes that list others, which are registered
  rw [hg.rollback_iff hmade]
  simp only [contains_rollback hmade]
  constructor
  · rintro hclosed p ⟨hp, -⟩ c hc
    exact ⟨fun hgone => hp (hclosed p c hc hgone), hg.contains_child hc⟩
  · intro hclosed p c hc hgone
    by_contra hp
    exact (hclosed p ⟨hp, contains_of_mem_children hc⟩ c hc).1 hgone

/-- A block that gets a new statement in a transaction lists it after the rollback. -/
theorem not_consistent_rollback_session_blockAndName :
    ¬ (session [.make .unknown (.identifier "" "y" .builtin []), .edit (.append 1 ⟨0, 3⟩)]
      blockAndName.begin).rollback.Consistent := by
  have hproper : ∀ s ∈ [Step.make .unknown (.identifier "" "y" .builtin []),
      .edit (.append 1 ⟨0, 3⟩)], s.Proper := by
    rintro s (_ | ⟨_, _ | ⟨_, ⟨⟩⟩⟩)
    · exact List.nodup_nil
    · exact trivial
  intro h
  have hclosed := (consistent_rollback_session_iff consistent_blockAndName hproper).1 h
  exact absurd (hclosed 1 rfl 3 (by decide +kernel)) (by decide +kernel)

/-! ### What is found after a commit -/

@[simp] theorem id_commit : f.commit.id = f.id := by
  unfold commit
  split <;> rfl

@[simp] theorem get?_commit : f.commit.get? k = f.get? k := by
  unfold commit
  split <;> rfl

@[simp] theorem contains_commit : f.commit.contains k = f.contains k := by
  unfold commit
  split <;> rfl

@[simp] theorem lastId_commit : f.commit.lastId = f.lastId := by
  unfold commit
  split <;> rfl

@[simp] theorem overrun_commit : f.commit.overrun = f.overrun := by
  unfold commit
  split <;> rfl

@[simp] theorem children_commit : f.commit.children k = f.children k := by
  rw [children, get?_commit, children]

@[simp] theorem walk_commit : f.commit.walk k = f.walk k := by
  have hwithin : ∀ depth k, f.commit.walkWithin depth k = f.walkWithin depth k := by
    intro depth
    induction depth with
    | zero => exact fun _ => rfl
    | succ depth ih =>
      intro k
      rw [walkWithin, walkWithin, get?_commit, funext ih]
  have hsize : f.commit.size = f.size := by
    unfold commit
    split <;> rfl
  rw [walk, hwithin, hsize, walk]

/-! ### Sessions that forget nothing -/

/-- What is registered in `g` is what was registered in `f`, and what is noted in the innermost
transaction, which was begun in `f`. -/
structure Journaled (f g : Forest) (made : List NodeId) : Prop where
  id_eq : g.id = f.id
  transactions_eq : g.transactions = ⟨made, f.lastId, f.overrun⟩ :: f.transactions
  contains_iff : ∀ k, g.contains k ↔ f.contains k ∨ k ∈ made
  fresh : ∀ k ∈ made, ¬ f.contains k

theorem journaled_begin (f : Forest) : Journaled f f.begin [] where
  id_eq := rfl
  transactions_eq := rfl
  contains_iff k := by simp; rfl
  fresh k h := by simp at h

namespace Journaled

/-- Neither the counter nor what nodes hold matters. -/
theorem congr (h : Journaled f g made) {g' : Forest} (hid : g'.id = g.id)
    (htransactions : g'.transactions = g.transactions)
    (hcontains : ∀ k, g'.contains k ↔ g.contains k) : Journaled f g' made where
  id_eq := hid.trans h.id_eq
  transactions_eq := htransactions.trans h.transactions_eq
  contains_iff k := (hcontains k).trans (h.contains_iff k)
  fresh := h.fresh

theorem register (h : Journaled f g made) {n : Node} {g' : Forest} (hreg : g.register n = .ok g') :
    Journaled f g' (n.id :: made) where
  id_eq := by
    obtain ⟨-, -, rfl⟩ := register_eq_ok hreg
    rw [id_insert, h.id_eq]
  transactions_eq := by rw [transactions_register hreg, h.transactions_eq]; rfl
  contains_iff k := by
    rw [contains_register hreg, h.contains_iff, List.mem_cons]
    exact or_left_comm
  fresh k hk := by
    rcases List.mem_cons.1 hk with rfl | hk
    · exact fun hf => (register_eq_ok hreg).1 ((h.contains_iff _).2 (Or.inl hf))
    · exact h.fresh k hk

theorem contains_of_contains (h : Journaled f g made) (hk : f.contains k) : g.contains k :=
  (h.contains_iff k).2 (Or.inl hk)

theorem contains_rollback_iff (h : Journaled f g made) : g.rollback.contains k ↔ f.contains k := by
  rw [contains_rollback h.transactions_eq, h.contains_iff]
  constructor
  · rintro ⟨hnot, hf | hin⟩
    · exact hf
    · exact absurd hin hnot
  · exact fun hf => ⟨fun hin => h.fresh k hin hf, Or.inl hf⟩

/-- What a transaction noted is noted in the one around it, when it is committed. -/
theorem commit (hg : Journaled f g made) {g' : Forest} {made' : List NodeId}
    (h : Journaled g g' made') : Journaled f g'.commit (made' ++ made) where
  id_eq := by rw [id_commit, h.id_eq, hg.id_eq]
  transactions_eq := by rw [Forest.commit, h.transactions_eq, hg.transactions_eq]
  contains_iff k := by
    rw [contains_commit, h.contains_iff, hg.contains_iff, List.mem_append, or_assoc,
      or_comm (b := k ∈ made')]
  fresh k hk := by
    rcases List.mem_append.1 hk with hk | hk
    · exact fun hold => h.fresh k hk (hg.contains_of_contains hold)
    · exact hg.fresh k hk

/-- A transaction that is rolled back leaves nothing to note. -/
theorem rollback (hg : Journaled f g made) {g' : Forest} {made' : List NodeId}
    (h : Journaled g g' made') : Journaled f g'.rollback made := by
  have heq := rollback_eq h.transactions_eq
  refine hg.congr ?_ ?_ fun k => h.contains_rollback_iff
  · rw [heq]
    exact h.id_eq
  · rw [heq]

end Journaled

theorem kept_journaled (f : Forest) : Kept (fun g => ∃ made, Journaled f g made) false where
  nextId := fun ⟨made, h⟩ => ⟨made, h.congr rfl rfl fun _ => Iff.rfl⟩
  register := fun ⟨_, h⟩ hregister => ⟨_, h.register hregister⟩
  sameNodes := fun ⟨made, h⟩ hsame =>
    ⟨made, h.congr hsame.id_eq hsame.transactions_eq fun _ => hsame.contains_iff⟩
  forget h := by contradiction

/-- A rollback after a session that forgets nothing leaves the nodes that were there before, and the
counter and the open transactions as they were. -/
theorem contains_rollback_session_iff (hf : f.Consistent) {steps : List Step}
    (hproper : ∀ s ∈ steps, s.Proper) (hforgets : ∀ s ∈ steps, s.forgets = false) :
    (∀ k, (session steps f.begin).rollback.contains k ↔ f.contains k) ∧
      (session steps f.begin).rollback.lastId = f.lastId ∧
        (session steps f.begin).rollback.overrun = f.overrun ∧
          (session steps f.begin).rollback.transactions = f.transactions := by
  have hno : ∀ s ∈ steps, s.forgets → false := fun s hs h => by simp [hforgets s hs] at h
  obtain ⟨-, made, hmade⟩ := session_induction (kept_journaled f) hproper hno hf.begin
    ⟨[], journaled_begin f⟩
  refine ⟨fun k => hmade.contains_rollback_iff, ?_, ?_, ?_⟩
  · rw [rollback_eq hmade.transactions_eq]
  · rw [rollback_eq hmade.transactions_eq]
  · rw [rollback_eq hmade.transactions_eq]

end Forest

end SolidityTree
