import SolidityTree.Forest.Run
import SolidityTree.Proofs.Lookup

/-!
# Reasoning about runs

A run succeeds or fails, and a failed run keeps what its edits did so far; so what is shown of a run
says where it may end in both cases.  `Run.wp run Q E` holds of the forests from which a success
ends with `Q` and a failure with `E`.  A run keeps a property (`Run.Keeps`) if both ends have it
wherever the start has it.
-/

namespace SolidityTree

/-! ### Results that may be faults -/

theorem Except.bind_eq_ok {α β : Type} {x : Except Fault α} {next : α → Except Fault β} {b : β} :
    x >>= next = .ok b ↔ ∃ a, x = .ok a ∧ next a = .ok b := by
  cases x <;> simp [bind, Except.bind]

namespace Run

variable {α β : Type} {f g : Forest} {Q : α → Forest → Prop} {E : Forest → Prop}

/-- Started in the forest, the run ends with `Q` if it succeeds and with `E` if it fails. -/
def wp (run : Run α) (Q : α → Forest → Prop) (E : Forest → Prop) (f : Forest) : Prop :=
  match run f with
  | .ok a f' => Q a f'
  | .error _ f' => E f'

/-- The run ends with the property wherever it starts with it. -/
def Keeps (I : Forest → Prop) (run : Run α) : Prop := ∀ f, I f → wp run (fun _ => I) I f

/-- The forest that a run leaves, whether it succeeds or fails. -/
def after (run : Run α) (f : Forest) : Forest :=
  match run f with
  | .ok _ f' => f'
  | .error _ f' => f'

theorem Keeps.after {I : Forest → Prop} {run : Run α} (h : Keeps I run) (hf : I f) :
    I (run.after f) := by
  have hrun := h f hf
  unfold wp at hrun
  unfold Run.after
  cases hr : run f with
  | ok a f' => rw [hr] at hrun; exact hrun
  | error fault f' => rw [hr] at hrun; exact hrun

/-! ### Ends that are seen -/

/-- What is seen of the end of a run, if it succeeds. -/
def seen? (run : Run α) (view : α → Forest → β) (f : Forest) : Option β :=
  match run f with
  | .ok a g => some (view a g)
  | .error _ _ => none

/-- Why a run fails, if it does. -/
def fault? (run : Run α) (f : Forest) : Option Fault :=
  match run f with
  | .ok _ _ => none
  | .error fault _ => some fault

theorem seen?_eq_some {run : Run α} {view : α → Forest → β} {b : β}
    (h : seen? run view f = some b) : ∃ a g, run f = .ok a g ∧ view a g = b := by
  unfold seen? at h
  split at h
  · next a g hrun => exact ⟨a, g, hrun, Option.some.inj h⟩
  · contradiction

theorem fault?_eq_some {run : Run α} {fault : Fault} (h : fault? run f = some fault) :
    ∃ g, run f = .error fault g := by
  unfold fault? at h
  split at h
  · contradiction
  · next fault' g hrun => exact ⟨g, by rw [hrun, Option.some.inj h]⟩

/-! ### Rules -/

theorem wp.mono {run : Run α} {Q' : α → Forest → Prop} {E' : Forest → Prop}
    (h : wp run Q E f) (hQ : ∀ a f', Q a f' → Q' a f') (hE : ∀ f', E f' → E' f') :
    wp run Q' E' f := by
  unfold wp at h ⊢
  split at h
  · exact hQ _ _ h
  · exact hE _ h

/-- What two accounts of a run say of its ends. -/
theorem wp.and {run : Run α} {Q' : α → Forest → Prop} {E' : Forest → Prop} (h : wp run Q E f)
    (h' : wp run Q' E' f) : wp run (fun a g => Q a g ∧ Q' a g) (fun g => E g ∧ E' g) f := by
  unfold wp at h h' ⊢
  split at h
  · next heq =>
    rw [heq] at h'
    exact ⟨h, h'⟩
  · next heq =>
    rw [heq] at h'
    exact ⟨h, h'⟩

theorem wp_ok {run : Run α} {a : α} (h : wp run Q E f) (hrun : run f = .ok a g) : Q a g := by
  rw [wp, hrun] at h
  exact h

/-- A run whose end is known. -/
theorem wp_of_ok {run : Run α} {a : α} (hrun : run f = .ok a g) (h : Q a g) : wp run Q E f := by
  rw [wp, hrun]
  exact h

theorem wp_error {run : Run α} {fault : Fault} (h : wp run Q E f)
    (hrun : run f = .error fault g) : E g := by
  rw [wp, hrun] at h
  exact h

theorem wp_pure {a : α} (h : Q a f) : wp (pure a) Q E f := h

theorem wp_throw {fault : Fault} (h : E f) : wp (throw fault : Run α) Q E f := h

theorem wp_bind {run : Run α} {next : α → Run β} {Q : β → Forest → Prop}
    (h : wp run (fun a => wp (next a) Q E) E f) : wp (run >>= next) Q E f := by
  unfold wp at h ⊢
  rw [show (run >>= next) f = EStateM.bind run next f from rfl, EStateM.bind]
  cases hrun : run f with
  | ok a f' => rw [hrun] at h; exact h
  | error fault f' => rw [hrun] at h; exact h

/-- A run whose end is known goes on from there. -/
theorem wp.andThen {run : Run α} {next : α → Run β} {P : α → Forest → Prop}
    {Q : β → Forest → Prop} (h : wp run P E f)
    (hnext : ∀ a f', P a f' → wp (next a) Q E f') : wp (run >>= next) Q E f :=
  wp_bind (h.mono hnext fun _ hE => hE)

theorem wp_get {Q : Forest → Forest → Prop} (h : Q f f) : wp get Q E f := h

theorem wp_modify {Q : Unit → Forest → Prop} {change : Forest → Forest} (h : Q () (change f)) :
    wp (modify change) Q E f := h

theorem wp_edit {Q : Unit → Forest → Prop} {change : Forest → Except Fault Forest}
    (h : ∀ f', change f = .ok f' → Q () f') (hE : E f) : wp (edit change) Q E f := by
  unfold wp edit
  cases hc : change f with
  | ok f' => exact h f' hc
  | error fault => exact hE

theorem wp_editWith {change : Forest → Except Fault (α × Forest)}
    (h : ∀ a f', change f = .ok (a, f') → Q a f') (hE : E f) : wp (editWith change) Q E f := by
  unfold wp editWith
  cases hc : change f with
  | ok af => exact h af.1 af.2 hc
  | error fault => exact hE

theorem wp_ask {question : Forest → Except Fault α} (h : ∀ a, question f = .ok a → Q a f)
    (hE : E f) : wp (ask question) Q E f := by
  unfold wp ask
  cases hq : question f with
  | ok a => exact h a hq
  | error fault => exact hE

/-- A question whose answer is known. -/
theorem wp_ask_of_ok {question : Forest → Except Fault α} {a : α} (h : question f = .ok a)
    (hQ : Q a f) : wp (ask question) Q E f := by
  rw [wp, ask, h]
  exact hQ

theorem wp_nextId {Q : NodeId → Forest → Prop} (h : Q f.nextId.1 f.nextId.2) :
    wp nextId Q E f := h

theorem wp_register {Q : Handle → Forest → Prop} {n : Node}
    (h : ∀ f', f.register n = .ok f' → Q (f'.handle n.id) f') (hE : E f) :
    wp (register n) Q E f :=
  wp_bind (wp_edit (fun f' hf' => wp_bind (wp_get (wp_pure (h f' hf')))) hE)

theorem wp_transaction {run : Run α} (h : wp run (fun a f' => Q a f'.commit) (fun f' => E f'.rollback)
    f.begin) : wp (transaction run) Q E f := by
  unfold wp transaction
  unfold wp at h
  cases hrun : run f.begin with
  | ok a f' => rw [hrun] at h; exact h
  | error fault f' => rw [hrun] at h; exact h

/-- An edit whose end is known. -/
theorem wp_edit_of_ok {Q : Unit → Forest → Prop} {change : Forest → Except Fault Forest}
    (h : change f = .ok g) (hQ : Q () g) : wp (edit change) Q E f := by
  rw [wp, edit, h]
  exact hQ

/-- A loop keeps what each turn keeps that succeeds, and fails as a turn fails. -/
theorem wp_forM {ι : Type} {I : Forest → Prop} {items : List ι} {body : ι → Run PUnit}
    (h : ∀ i ∈ items, ∀ f, I f → wp (body i) (fun _ => I) E f) (hf : I f) :
    wp (items.forM body) (fun _ => I) E f := by
  induction items generalizing f with
  | nil => exact wp_pure hf
  | cons i rest ih =>
    refine (h i List.mem_cons_self f hf).andThen fun _ f' hf' => ?_
    exact ih (fun j hj => h j (List.mem_cons_of_mem _ hj)) hf'

/-- A loop keeps what each turn keeps. -/
theorem keeps_forM {ι : Type} {I : Forest → Prop} {items : List ι} {body : ι → Run PUnit}
    (h : ∀ i ∈ items, Keeps I (body i)) : Keeps I (items.forM body) :=
  fun _ hf => wp_forM h hf

/-- What a turn of a loop brings about for its own item holds at the end, if the later turns do not
spoil it; the turn for `i` is harmless to `j` where `R j i` holds. -/
theorem wp_forM_pairwise {ι : Type} {I : Forest → Prop} {P : ι → Forest → Prop} {R : ι → ι → Prop}
    {items : List ι} {body : ι → Run PUnit}
    (hbody : ∀ i ∈ items, ∀ f, I f →
      wp (body i) (fun _ g => I g ∧ P i g ∧ ∀ j, R j i → P j f → P j g) E f)
    (hR : items.Pairwise R) (hf : I f) :
    wp (items.forM body) (fun _ g => I g ∧ (∀ i ∈ items, P i g) ∧
      ∀ j, (∀ i ∈ items, R j i) → P j f → P j g) E f := by
  induction items generalizing f with
  | nil => exact wp_pure ⟨hf, by simp, fun _ _ h => h⟩
  | cons i rest ih =>
    obtain ⟨hi, hrest⟩ := List.pairwise_cons.1 hR
    refine (hbody i List.mem_cons_self f hf).andThen fun _ g ⟨hg, hgi, hkeep⟩ => ?_
    refine (ih (fun k hk => hbody k (List.mem_cons_of_mem _ hk)) hrest hg).mono
      (fun _ h ⟨hh, hhrest, hkeep'⟩ => ⟨hh, ?_, fun j hj hfj => ?_⟩) fun _ hE => hE
    · exact List.forall_mem_cons.2 ⟨hkeep' i hi hgi, hhrest⟩
    · obtain ⟨hji, hjrest⟩ := List.forall_mem_cons.1 hj
      exact hkeep' j hjrest (hkeep j hji hfj)

/-! ### Runs that change nothing -/

theorem exists_ok_of_wp {run : Run α} (h : wp run Q (fun _ => False) f) :
    ∃ a g, run f = .ok a g ∧ Q a g := by
  unfold wp at h
  split at h
  · next a g hrun => exact ⟨a, g, hrun, h⟩
  · contradiction

theorem eq_ok_of_wp {run : Run Unit} (h : wp run (fun _ h => h = g) (fun _ => False) f) :
    run f = .ok () g := by
  unfold wp at h
  split at h
  · next heq => rw [heq, h]
  · contradiction

theorem bind_of_ok {run : Run α} {a : α} (h : run f = .ok a g) (next : α → Run β) :
    (run >>= next) f = next a g := by
  show EStateM.bind run next f = _
  rw [EStateM.bind, h]

theorem bind_of_error {run : Run α} {fault : Fault} (h : run f = .error fault g)
    (next : α → Run β) : (run >>= next) f = .error fault g := by
  show EStateM.bind run next f = _
  rw [EStateM.bind, h]

theorem bind_eq_ok {run : Run α} {next : α → Run β} {b : β} :
    (run >>= next) f = .ok b g ↔ ∃ a h, run f = .ok a h ∧ next a h = .ok b g := by
  show EStateM.bind run next f = .ok b g ↔ _
  rw [EStateM.bind]
  cases hrun : run f with
  | ok a h => simp
  | error fault h => simp

theorem bind_eq_error {run : Run α} {next : α → Run β} {fault : Fault} :
    (run >>= next) f = .error fault g ↔
      run f = .error fault g ∨ ∃ a h, run f = .ok a h ∧ next a h = .error fault g := by
  show EStateM.bind run next f = .error fault g ↔ _
  rw [EStateM.bind]
  cases hrun : run f with
  | ok a h => simp
  | error fault h => simp

theorem ask_eq_ok {question : Forest → Except Fault α} {a : α} :
    ask question f = .ok a g ↔ question f = .ok a ∧ f = g := by
  rw [ask]
  cases question f <;> simp

theorem get_eq_ok (f : Forest) : (get : Run Forest) f = .ok f f := rfl

theorem transaction_eq_ok {run : Run α} {a : α} :
    transaction run f = .ok a g ↔ ∃ h, run f.begin = .ok a h ∧ h.commit = g := by
  rw [transaction]
  cases run f.begin <;> simp

theorem register_run_eq {n : Node} (h : f.register n = .ok g) :
    register n f = .ok (g.handle n.id) g := by
  have hedit : edit (Forest.register · n) f = .ok () g := by rw [edit, h]
  exact bind_eq_ok.2 ⟨(), g, hedit, rfl⟩

theorem register_of_run {n : Node} {a : Handle} (h : register n f = .ok a g) :
    f.register n = .ok g := by
  obtain ⟨⟨⟩, f', hedit, h⟩ := bind_eq_ok.1 h
  obtain ⟨-, rfl⟩ := EStateM.Result.ok.inj h
  rw [edit] at hedit
  split at hedit
  · next hregister => rw [hregister, (EStateM.Result.ok.inj hedit).2]
  · contradiction

theorem forM_eq_self {ι : Type} {items : List ι} {body : ι → Run PUnit}
    (h : ∀ i ∈ items, body i f = .ok () f) : items.forM body f = .ok () f := by
  induction items with
  | nil => rfl
  | cons i rest ih =>
    have hi := h i List.mem_cons_self
    exact bind_eq_ok.2 ⟨(), f, hi, ih fun j hj => h j (List.mem_cons_of_mem _ hj)⟩

/-- A loop whose turns lead up in an order changes nothing only if no turn does. -/
theorem forM_eq_self_iff {ι : Type} {I : Forest → Prop} {le : Forest → Forest → Prop}
    (hrefl : ∀ f, le f f) (htrans : ∀ {f g h}, le f g → le g h → le f h)
    (hantisymm : ∀ {f g}, le f g → le g f → f = g) {items : List ι} {body : ι → Run PUnit}
    (hbody : ∀ i ∈ items, ∀ f, I f → wp (body i) (fun _ g => I g ∧ le f g) (fun _ => True) f)
    (hf : I f) : items.forM body f = .ok () f ↔ ∀ i ∈ items, body i f = .ok () f := by
  refine ⟨fun h => ?_, forM_eq_self⟩
  induction items with
  | nil => simp
  | cons i rest ih =>
    have hrest : ∀ j ∈ rest, ∀ f, I f → wp (body j) (fun _ g => I g ∧ le f g) (fun _ => True) f :=
      fun j hj => hbody j (List.mem_cons_of_mem _ hj)
    obtain ⟨⟨⟩, g, hi, hg⟩ := bind_eq_ok.1 h
    obtain ⟨hIg, hup⟩ := wp_ok (hbody i List.mem_cons_self f hf) hi
    -- the rest leads from where the first turn has led back to the start
    have hloop : wp (rest.forM body) (fun _ h => I h ∧ le g h) (fun _ => True) g := by
      refine wp_forM (fun j hj f ⟨hIf, hgf⟩ => ?_) ⟨hIg, hrefl g⟩
      exact (hrest j hj f hIf).mono (fun _ h ⟨hIh, hfh⟩ => ⟨hIh, htrans hgf hfh⟩) fun _ h => h
    obtain rfl : f = g := hantisymm hup (wp_ok hloop hg).2
    exact List.forall_mem_cons.2 ⟨hi, ih hrest hg⟩

end Run

end SolidityTree
