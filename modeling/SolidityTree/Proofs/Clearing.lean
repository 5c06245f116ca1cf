import SolidityTree.Proofs.Repetition

/-!
# Clearing lost references

A visit of the pass over references clears the reference of one node, if it is lost.  No node comes
or goes, so what is lost stays the same, and the pass as a whole clears exactly the references that
are lost in the forest it finds, in the trees of the units, and touches nothing else
(`Builtin.wp_run_clears`).
-/

namespace SolidityTree

open Forest

variable {f g h : Forest} {k r : NodeId} {n : Node} {config : Config} {ids ids' : List NodeId}

/-! ### Nodes that refer to a declaration -/

/-- The kinds whose nodes refer to a declaration. -/
def Kind.refers : Kind → Bool
  | .identifier | .memberAccess | .identifierPath | .userDefinedTypeName | .yulIdentifier => true
  | _ => false

theorem Attributes.isSome_referenced? (attributes : Attributes) :
    attributes.referenced?.isSome = attributes.kind.refers := by
  cases attributes <;> rfl

theorem Attributes.referenced?_setReferenced (target : NodeId) (attributes : Attributes) :
    (attributes.setReferenced target).referenced? =
      attributes.referenced?.map fun _ => target := by
  cases attributes <;> rfl

theorem Attributes.setReferenced_setReferenced (first second : NodeId) (attributes : Attributes) :
    (attributes.setReferenced first).setReferenced second = attributes.setReferenced second := by
  cases attributes <;> rfl

theorem Attributes.setReferenced_eq_self {attributes : Attributes}
    (h : attributes.referenced? = some r) : attributes.setReferenced r = attributes := by
  cases attributes <;> cases h <;> rfl

/-- The reference that was there can be set back, so nothing else is touched. -/
theorem Node.setReferenced_setReferenced (target : NodeId)
    (hr : n.payload.attributes.referenced? = some r) :
    (n.mapPayload (Payload.setReferenced · target)).mapPayload (Payload.setReferenced · r) = n := by
  have hback : (n.payload.setReferenced target).setReferenced r = n.payload := by
    refine Payload.ext_parts ?_ rfl
    show (n.payload.attributes.setReferenced target).setReferenced r = n.payload.attributes
    rw [Attributes.setReferenced_setReferenced, Attributes.setReferenced_eq_self hr]
  exact congrArg (fun payload => ({ n with payload } : Node)) hback

theorem Node.setReferenced_eq_self (hr : n.payload.attributes.referenced? = some r) :
    n.mapPayload (Payload.setReferenced · r) = n := by
  have hself : n.payload.setReferenced r = n.payload :=
    Payload.ext_parts (Attributes.setReferenced_eq_self hr) rfl
  exact congrArg (fun payload => ({ n with payload } : Node)) hself

namespace Builtin

/-! ### Cleared references -/

/-- A node without its reference, if that is lost in the forest. -/
def clear (f : Forest) (n : Node) : Node :=
  if n.payload.attributes.referenced?.any (isLost f) then
    n.mapPayload (Payload.setReferenced · NodeId.builtin)
  else n

/-- The reference of a node after it has been cleared, if it was lost. -/
theorem referenced?_clear (hr : n.payload.attributes.referenced? = some r) :
    (clear f n).payload.attributes.referenced? =
      some (if isLost f r then NodeId.builtin else r) := by
  rw [clear, hr, Option.any_some]
  split
  · have hset := n.payload.attributes.referenced?_setReferenced NodeId.builtin
    rw [hr] at hset
    exact hset
  · exact hr

/-- Only the reference has changed, if anything has. -/
theorem setReferenced_clear (hr : n.payload.attributes.referenced? = some r) :
    (clear f n).mapPayload (Payload.setReferenced · r) = n := by
  unfold clear
  split
  · exact Node.setReferenced_setReferenced NodeId.builtin hr
  · exact Node.setReferenced_eq_self hr

theorem clear_eq_self (h : n.payload.attributes.referenced?.any (isLost f) = false) :
    clear f n = n :=
  if_neg (by rw [h]; exact Bool.false_ne_true)

theorem any_isLost_clear : (clear f n).payload.attributes.referenced?.any (isLost f) = false := by
  cases hr : n.payload.attributes.referenced? with
  | none =>
    have hidle : clear f n = n := clear_eq_self (by rw [hr]; rfl)
    rw [hidle, hr]
    rfl
  | some r =>
    rw [referenced?_clear hr, Option.any_some]
    split
    · rfl
    · next hkept => exact Bool.eq_false_of_not_eq_true hkept

theorem clear_clear : clear f (clear f n) = clear f n := clear_eq_self any_isLost_clear

theorem children_clear : (clear f n).children = n.children := by
  unfold clear
  split
  · exact n.payload.children_setReferenced NodeId.builtin
  · rfl

theorem clear_fields : (clear f n).id = n.id ∧ (clear f n).forest? = n.forest? ∧
    (clear f n).parent? = n.parent? := by
  unfold clear
  split <;> exact ⟨rfl, rfl, rfl⟩

/-- The references of the listed nodes have been cleared where they were lost, and nothing else has
changed. -/
structure Clears (ids : List NodeId) (f g : Forest) : Prop where
  id_eq : g.id = f.id
  lastId_eq : g.lastId = f.lastId
  overrun_eq : g.overrun = f.overrun
  transactions_eq : g.transactions = f.transactions
  get?_eq : ∀ k, g.get? k = if k ∈ ids then (f.get? k).map (clear f) else f.get? k

namespace Clears

theorem refl (f : Forest) : Clears [] f f := ⟨rfl, rfl, rfl, rfl, fun _ => by simp⟩

theorem congr (hfg : Clears ids f g) (hids : ∀ k, k ∈ ids' ↔ k ∈ ids) : Clears ids' f g :=
  ⟨hfg.id_eq, hfg.lastId_eq, hfg.overrun_eq, hfg.transactions_eq, fun k => by
    simp only [hids, hfg.get?_eq]⟩

theorem get?_eq_or (hfg : Clears ids f g) (k : NodeId) :
    g.get? k = f.get? k ∨ g.get? k = (f.get? k).map (clear f) := by
  rw [hfg.get?_eq]
  split
  · exact .inr rfl
  · exact .inl rfl

/-- A node is what it was, or would be if its reference were set back. -/
theorem exists_get? (hfg : Clears ids f g) (hn : f.get? k = some n) :
    ∃ m, g.get? k = some m ∧ (m = n ∨ ∃ r, n.payload.attributes.referenced? = some r ∧
      m.mapPayload (Payload.setReferenced · r) = n) := by
  rcases hfg.get?_eq_or k with heq | heq
  · exact ⟨n, heq.trans hn, .inl rfl⟩
  · rw [hn, Option.map_some] at heq
    refine ⟨clear f n, heq, ?_⟩
    cases hr : n.payload.attributes.referenced? with
    | none => exact .inl (clear_eq_self (by rw [hr]; rfl))
    | some r => exact .inr ⟨r, rfl, setReferenced_clear hr⟩

theorem sameTrees (hfg : Clears ids f g) : SameTrees f g := by
  have hview : ∀ {α : Type} (view : Node → α), (∀ n, view (clear f n) = view n) →
      ∀ k, (g.get? k).map view = (f.get? k).map view := by
    intro α view hclear k
    rcases hfg.get?_eq_or k with heq | heq
    · rw [heq]
    · rw [heq, Option.map_map]
      exact congrArg (Option.map · (f.get? k)) (funext hclear)
  have hparent : ∀ k, (g.get? k).map Node.parent? = (f.get? k).map Node.parent? :=
    hview _ fun n => clear_fields.2.2
  refine ⟨hfg.id_eq, ?_, fun k => ?_, fun k => ?_⟩
  · exact hview _ fun n => Prod.ext clear_fields.1 clear_fields.2.1
  · rw [children, children, hview _ (fun n => children_clear) k]
  · have hjoin : ∀ n? : Option Node, n?.bind Node.parent? = (n?.map Node.parent?).bind id :=
      fun n? => by cases n? <;> rfl
    rw [parent?, parent?, hjoin, hjoin, hparent]

theorem contains_eq (hfg : Clears ids f g) : g.contains k = f.contains k :=
  Bool.eq_iff_iff.2 hfg.sameTrees.contains_iff

/-- No node comes or goes, so the same references are lost. -/
theorem isLost_eq (hfg : Clears ids f g) : isLost g = isLost f := by
  funext r
  rw [isLost, isLost, hfg.contains_eq]

theorem clear_eq (hfg : Clears ids f g) : clear g = clear f := by
  funext n
  rw [clear, clear, hfg.isLost_eq]

theorem trans (hfg : Clears ids f g) (hgh : Clears ids' g h) : Clears (ids ++ ids') f h := by
  refine ⟨hgh.id_eq.trans hfg.id_eq, hgh.lastId_eq.trans hfg.lastId_eq,
    hgh.overrun_eq.trans hfg.overrun_eq, hgh.transactions_eq.trans hfg.transactions_eq, fun k => ?_⟩
  rw [hgh.get?_eq, hfg.clear_eq, hfg.get?_eq]
  by_cases hk : k ∈ ids <;> by_cases hk' : k ∈ ids' <;>
    simp [hk, hk', Function.comp_def, clear_clear]

end Clears

/-! ### The pass -/

theorem wp_visit_clears (k : NodeId) :
    Run.wp (pass.visit config k) (fun _ g => Clears [k] f g) (fun _ => False) f := by
  -- a visit that changes nothing leaves a node that is cleared already
  have hidle : (∀ n, f.get? k = some n → clear f n = n) → Clears [k] f f := fun hclear => by
    refine ⟨rfl, rfl, rfl, rfl, fun j => ?_⟩
    split
    · next hj =>
      obtain rfl := List.mem_singleton.1 hj
      cases hn : f.get? j with
      | none => rfl
      | some n => rw [Option.map_some, hclear n hn]
    · rfl
  refine Run.wp_bind (Run.wp_get ?_)
  split
  · next hsupports =>
    obtain ⟨n, hn, -⟩ := (Option.any_eq_true _ _).1 hsupports
    refine Run.wp_bind (Run.wp_bind (Run.wp_ask_of_ok (node_eq_ok.2 hn)
      (Run.wp_bind (Run.wp_get ?_))))
    split
    · next hlost =>
      refine Run.wp_bind (Run.wp_modify (Run.wp_pure (Run.wp_pure ?_)))
      refine ⟨rfl, rfl, rfl, rfl, fun j => ?_⟩
      rw [modifyPayload, get?_modify]
      by_cases hj : k = j
      · subst hj
        rw [if_pos rfl, if_pos (List.mem_singleton_self k), hn, Option.map_some, Option.map_some,
          clear, if_pos hlost]
      · rw [if_neg hj, if_neg fun hmem => hj (List.mem_singleton.1 hmem).symm]
    · next hkept =>
      refine Run.wp_pure (Run.wp_pure (hidle fun m hm => ?_))
      obtain rfl : m = n := Option.some.inj (hm.symm.trans hn)
      exact if_neg hkept
  · next hsupports =>
    refine Run.wp_pure (hidle fun n hn => clear_eq_self ?_)
    rw [hn, Option.any_some] at hsupports
    have hnone : n.payload.attributes.referenced? = none := by simpa [pass] using hsupports
    rw [hnone]
    rfl

theorem wp_forM_clears (ids : List NodeId) :
    Run.wp (ids.forM (pass.visit config)) (fun _ g => Clears ids f g) (fun _ => False) f := by
  induction ids generalizing f with
  | nil => exact Run.wp_pure (.refl f)
  | cons k rest ih =>
    refine (wp_visit_clears k).andThen fun _ g hfg => ?_
    exact ih.mono (fun _ h hgh => hfg.trans hgh) fun _ hE => hE

/-- **The pass over references succeeds and clears what is lost** in the trees of units. -/
theorem wp_run_clears (config : Config) (hf : f.Consistent) (units : List NodeId) :
    Run.wp (pass.run config units) (fun _ g => Clears (units.flatMap f.walk) f g) (fun _ => False)
      f := by
  induction units generalizing f with
  | nil => exact Run.wp_pure (.refl f)
  | cons unit rest ih =>
    have hunit : Run.wp (do let tree := (← get).walk unit; tree.forM (pass.visit config))
        (fun _ g => Clears (f.walk unit) f g) (fun _ => False) f :=
      Run.wp_bind (Run.wp_get (wp_forM_clears _))
    refine hunit.andThen fun _ g hfg => ?_
    have hg := hfg.sameTrees.consistent hf
    -- the trees of the other units are the same as before
    have hretains := Retains.of_sameTrees hfg.sameTrees hf
    have hwalk : ∀ u k, k ∈ f.walk u ↔ k ∈ g.walk u := fun u k => by
      rw [hf.mem_walk_iff, hg.mem_walk_iff, hfg.contains_eq]
      exact and_congr_right fun hk => (hretains.reaches_iff hf hk).symm
    refine (ih hg).mono (fun _ h hgh => (hfg.trans hgh).congr fun k => ?_) fun _ hE => hE
    rw [List.flatMap_cons, List.mem_append, List.mem_append, List.mem_flatMap, List.mem_flatMap]
    simp only [hwalk]

end Builtin

end SolidityTree
