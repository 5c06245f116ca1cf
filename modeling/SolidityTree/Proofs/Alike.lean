import SolidityTree.Proofs.Schemas
import SolidityTree.Proofs.Views
import SolidityTree.Reading

/-!
# Runs that end alike

Two runs end alike if they give the same answer, or fail for the same reason, and leave forests that
are alike in a view (`Run.EndAlike`).  The rules below follow the two runs step by step, in forests
that are alike (`Run.Alike`).

From them it follows that the passes and the conversion of records do to a forest what they do to
any forest that is alike, and that reads with and without the records of nodes end alike in every
view that shows no records but those of inline assembly (`Run.alike_read`).
-/

namespace SolidityTree

namespace Run

open Forest

variable {α β ι : Type} {v : View} {f g : Forest} {run run' : Run α}

/-- The runs, each in its forest, give the same answer or fail for the same reason, and leave
forests that are alike. -/
def EndAlike (v : View) (run run' : Run α) (f g : Forest) : Prop :=
  match run f, run' g with
  | .ok a f', .ok b g' => a = b ∧ f'.Alike v g'
  | .error fault f', .error fault' g' => fault = fault' ∧ f'.Alike v g'
  | _, _ => False

/-- The runs end alike in forests that are alike. -/
def Alike (v : View) (run run' : Run α) : Prop := ∀ f g, f.Alike v g → EndAlike v run run' f g

theorem endAlike_of_error {fault : Fault} {f' g' : Forest} (hrun : run f = .error fault f')
    (hrun' : run' g = .error fault g') (h : f'.Alike v g') : EndAlike v run run' f g := by
  rw [EndAlike, hrun, hrun']
  exact ⟨rfl, h⟩

/-- The two ways in which runs end alike. -/
theorem EndAlike.cases (h : EndAlike v run run' f g) :
    (∃ a f' g', run f = .ok a f' ∧ run' g = .ok a g' ∧ f'.Alike v g') ∨
      ∃ fault f' g', run f = .error fault f' ∧ run' g = .error fault g' ∧ f'.Alike v g' := by
  unfold EndAlike at h
  split at h
  · next hrun hrun' =>
    obtain ⟨rfl, hfg⟩ := h
    exact .inl ⟨_, _, _, hrun, hrun', hfg⟩
  · next hrun hrun' =>
    obtain ⟨rfl, hfg⟩ := h
    exact .inr ⟨_, _, _, hrun, hrun', hfg⟩
  · exact h.elim

theorem EndAlike.exists_ok {a : α} {f' : Forest} (h : EndAlike v run run' f g)
    (hrun : run f = .ok a f') : ∃ g', run' g = .ok a g' ∧ f'.Alike v g' := by
  rcases h.cases with ⟨b, f'', g', hf, hg, hfg⟩ | ⟨fault, f'', g', hf, -, -⟩
  · obtain ⟨rfl, rfl⟩ := EStateM.Result.ok.inj (hrun.symm.trans hf)
    exact ⟨g', hg, hfg⟩
  · rw [hrun] at hf
    contradiction

/-! ### Steps -/

theorem alike_pure (a : α) : Alike v (pure a) (pure a) := fun _ _ hfg => ⟨rfl, hfg⟩

theorem alike_throw (fault : Fault) : Alike v (throw fault : Run α) (throw fault) :=
  fun _ _ hfg => ⟨rfl, hfg⟩

/-- What follows goes on from the answer, which both runs give if the first one does. -/
theorem EndAlike.bind_of {next next' : α → Run β} (h : EndAlike v run run' f g)
    (hnext : ∀ a f', run f = .ok a f' → Alike v (next a) (next' a)) :
    EndAlike v (run >>= next) (run' >>= next') f g := by
  rcases h.cases with ⟨a, f', g', hf, hg, hfg⟩ | ⟨fault, f', g', hf, hg, hfg⟩
  · rw [EndAlike, bind_of_ok hf, bind_of_ok hg]
    exact hnext a f' hf f' g' hfg
  · exact endAlike_of_error (bind_of_error hf next) (bind_of_error hg next') hfg

theorem EndAlike.bind {next next' : α → Run β} (h : EndAlike v run run' f g)
    (hnext : ∀ a, Alike v (next a) (next' a)) :
    EndAlike v (run >>= next) (run' >>= next') f g :=
  h.bind_of fun a _ _ => hnext a

theorem Alike.bind {next next' : α → Run β} (h : Alike v run run')
    (hnext : ∀ a, Alike v (next a) (next' a)) : Alike v (run >>= next) (run' >>= next') :=
  fun f g hfg => (h f g hfg).bind hnext

theorem endAlike_get {next next' : Forest → Run β} (h : EndAlike v (next f) (next' g) f g) :
    EndAlike v (get >>= next) (get >>= next') f g := h

theorem endAlike_modify {change change' : Forest → Forest} (h : (change f).Alike v (change' g)) :
    EndAlike v (modify change) (modify change') f g := ⟨rfl, h⟩

theorem endAlike_edit {change change' : Forest → Except Fault Forest} (hfg : f.Alike v g)
    (h : Forest.EndAlike v (change f) (change' g)) :
    EndAlike v (edit change) (edit change') f g := by
  rcases h.cases with ⟨f', g', hf, hg, hfg'⟩ | ⟨fault, hf, hg⟩
  · rw [EndAlike, edit, hf, edit, hg]
    exact ⟨rfl, hfg'⟩
  · rw [EndAlike, edit, hf, edit, hg]
    exact ⟨rfl, hfg⟩

theorem endAlike_ask {question question' : Forest → Except Fault α} (hfg : f.Alike v g)
    (h : question f = question' g) : EndAlike v (ask question) (ask question') f g := by
  rw [EndAlike, ask, ask, h]
  cases question' g with
  | ok a => exact ⟨rfl, hfg⟩
  | error fault => exact ⟨rfl, hfg⟩

/-- What is asked of no forest. -/
theorem alike_ask_const (answer : Except Fault α) :
    Alike v (ask fun _ => answer) (ask fun _ => answer) := fun _ _ hfg => endAlike_ask hfg rfl

/-- A node is asked for, and the two runs go on with nodes that look alike. -/
theorem endAlike_node {id : NodeId} {next next' : Node → Run β} (hfg : f.Alike v g)
    (hnext : ∀ n m, f.get? id = some n → v.node n = v.node m →
      EndAlike v (next n) (next' m) f g) :
    EndAlike v (ask (Forest.node · id) >>= next) (ask (Forest.node · id) >>= next') f g := by
  rcases hfg.get?_cases id with ⟨hf, hg⟩ | ⟨n, m, hn, hm, hnode⟩
  · have hask : ∀ {h : Forest}, h.get? id = none →
        ask (Forest.node · id) h = .error (.unknownNode id) h := fun {h} hnone => by
      rw [ask, Forest.node, hnone]
    exact endAlike_of_error (bind_of_error (hask hf) next) (bind_of_error (hask hg) next') hfg
  · rw [EndAlike, bind_of_ok (ask_eq_ok.2 ⟨node_eq_ok.2 hn, rfl⟩),
      bind_of_ok (ask_eq_ok.2 ⟨node_eq_ok.2 hm, rfl⟩)]
    exact hnext n m hn hnode

theorem alike_forM {items : List ι} {body body' : ι → Run PUnit}
    (h : ∀ i, Alike v (body i) (body' i)) : Alike v (items.forM body) (items.forM body') := by
  induction items with
  | nil => exact alike_pure _
  | cons i rest ih => exact (h i).bind fun _ => ih

theorem alike_nextId : Alike v nextId nextId := fun _ _ hfg => hfg.nextId

theorem alike_register {n m : Node} (hnode : v.node n = v.node m) :
    Alike v (register n) (register m) := by
  intro f g hfg
  refine (endAlike_edit hfg (hfg.register hnode)).bind fun _ f g hfg => endAlike_get ?_
  rw [View.id_eq hnode, handle, handle, hfg.id_eq]
  exact alike_pure _ _ _ hfg

theorem Alike.transaction (h : Alike v run run') : Alike v (transaction run) (transaction run') := by
  intro f g hfg
  rcases (h _ _ hfg.begin).cases with ⟨a, f', g', hf, hg, hfg'⟩ | ⟨fault, f', g', hf, hg, hfg'⟩
  · rw [EndAlike, Run.transaction, hf, Run.transaction, hg]
    exact ⟨rfl, hfg'.commit⟩
  · rw [EndAlike, Run.transaction, hf, Run.transaction, hg]
    exact ⟨rfl, hfg'.rollback⟩

/-! ### Documentation -/

theorem alike_attachDocumentation (id : NodeId) (doc : Handle) :
    Alike v (attachDocumentation id doc) (attachDocumentation id doc) := by
  intro f g hfg
  refine (endAlike_ask hfg (hfg.documentationOf_eq id)).bind fun old f g hfg => ?_
  refine (endAlike_ask hfg (hfg.checkDocumentation_eq id doc)).bind fun _ f g hfg => ?_
  refine endAlike_node hfg fun n m _ hnode => ?_
  rw [View.kind_eq hnode]
  split
  · refine (endAlike_modify (hfg.modifyPayload_same (·.setDocString none)
      (fun p => Attributes.kind_setDocString none p.attributes)
      (fun p => View.setDocString_payload p none) id)).bind fun _ f g hfg => ?_
    split
    · exact endAlike_edit hfg (hfg.replace id doc _)
    · exact endAlike_edit hfg (hfg.prepend id doc)
  · refine (endAlike_modify (hfg.modifyPayload_same (·.setDocumentation (some (.node doc.id)))
      (fun _ => rfl) (fun _ => rfl) id)).bind fun _ f g hfg => ?_
    have hlast : Alike v (modify (Forest.setParent · doc.id (some id)))
        (modify (Forest.setParent · doc.id (some id))) :=
      fun _ _ hfg => endAlike_modify (hfg.setParent doc.id (some id))
    split
    · exact (endAlike_modify (hfg.setParent _ none)).bind fun _ => hlast
    · exact hlast _ _ hfg

theorem alike_attachDangling (id : NodeId) (doc : Handle) :
    Alike v (attachDangling id doc) (attachDangling id doc) := by
  intro f g hfg
  refine (endAlike_ask hfg (hfg.danglingOf_eq id)).bind fun old f g hfg => ?_
  refine (endAlike_ask hfg (hfg.checkDocumentation_eq id doc)).bind fun _ f g hfg => ?_
  refine endAlike_node hfg fun _ _ _ _ => ?_
  refine (endAlike_modify (hfg.modifyPayload_same (·.setDanglingDocString none)
    (fun p => Attributes.kind_setDanglingDocString none p.attributes)
    (fun p => View.setDanglingDocString_payload p none) id)).bind fun _ f g hfg => ?_
  split
  · exact endAlike_edit hfg (hfg.replace id doc _)
  · exact endAlike_edit hfg (hfg.append id doc)

end Run

/-! ### Passes -/

/-- A pass does the same to every node in forests that are alike, if they are read with either
configuration. -/
def Pass.Alike (v : View) (p : Pass) (config config' : Config) : Prop :=
  ∀ id, Run.Alike v (p.visit config id) (p.visit config' id)

namespace Pass

open Run Forest

variable {v : View} {p : Pass} {config config' : Config}

/-- A pass that looks at no more than what is seen. -/
theorem alike_of_process (hsupports : ∀ n, p.supports (v.node n) = p.supports n)
    (hprocess : ∀ id, Run.Alike v (p.process config id) (p.process config' id)) :
    p.Alike v config config' := by
  intro id f g hfg
  refine endAlike_get ?_
  have hany : (f.get? id).any p.supports = (g.get? id).any p.supports := by
    rcases hfg.get?_cases id with ⟨hf, hg⟩ | ⟨n, m, hn, hm, hnode⟩
    · rw [hf, hg]
    · rw [hn, hm, Option.any_some, Option.any_some, ← hsupports n, hnode, hsupports]
  rw [hany]
  split
  · exact (hprocess id f g hfg).bind fun _ => alike_pure _
  · exact alike_pure _ _ _ hfg

theorem Alike.run (h : p.Alike v config config') (units : List NodeId) :
    Run.Alike v (p.run config units) (p.run config' units) := by
  refine alike_forM fun unit f g hfg => endAlike_get ?_
  rw [hfg.walk_eq]
  exact alike_forM h f g hfg

theorem alike_runAll {passes : List Pass} (h : ∀ p ∈ passes, p.Alike v config config')
    (units : List NodeId) :
    Run.Alike v (runAll passes config units) (runAll passes config' units) := by
  induction passes with
  | nil => exact alike_pure _
  | cons p rest ih =>
    obtain ⟨hp, hrest⟩ := List.forall_mem_cons.1 h
    exact (hp.run units).bind fun _ => ih hrest

end Pass

namespace Builtin

open Run Forest

variable {v : View} {config config' : Config}

theorem alike : pass.Alike v config config' := by
  refine Pass.alike_of_process (fun n => congrArg Option.isSome (View.referenced?_node n)) ?_
  intro id f g hfg
  refine endAlike_node hfg fun n m _ hnode => endAlike_get ?_
  have hlost : isLost f = isLost g := by
    funext reference
    rw [isLost, hfg.contains_eq, isLost]
  rw [hlost, ← View.referenced?_node n, hnode, View.referenced?_node]
  split
  · refine (endAlike_modify (hfg.modifyPayload_same (·.setReferenced NodeId.builtin)
      (fun p => Attributes.kind_setReferenced _ p.attributes)
      (fun p => View.setReferenced_payload p NodeId.builtin) id)).bind fun _ => alike_pure _
  · exact alike_pure _ _ _ hfg

end Builtin

namespace Comments

open Run Forest

variable {v : View} {f g : Forest} {config config' : Config}

theorem source?_eq_of_alike (hsources : config.sources = config'.sources) (hfg : f.Alike v g)
    (id : NodeId) : source? config f id = source? config' g id := by
  unfold source? Config.sourceText?
  rw [hsources, hfg.root_eq]
  exact hfg.bind_eq (fun n => by rw [View.unit?_node]) _

/-- The gap before a node begins with the sibling before it, or else with its parent. -/
theorem precedingGap?_of_get? {id : NodeId} {n : Node} (hn : f.get? id = some n) :
    precedingGap? f id = (((f.previous? id).bind f.get?).filter fun s => !s.src.isUnknown).elim
      (n.parent?.bind fun p => (f.get? p).bind fun parent => gap? parent.src.offset n.src.offset)
      fun sibling => gap? sibling.src.stop n.src.offset := by
  rw [precedingGap?, hn, Option.bind_eq_bind, Option.bind_some]
  cases ((f.previous? id).bind f.get?).filter fun s => !s.src.isUnknown <;> rfl

theorem precedingGap?_eq_of_alike (hfg : f.Alike v g) (id : NodeId) :
    precedingGap? f id = precedingGap? g id := by
  have hsibling : (((f.previous? id).bind f.get?).filter fun s => !s.src.isUnknown).map (·.src) =
      (((g.previous? id).bind g.get?).filter fun s => !s.src.isUnknown).map (·.src) := by
    rw [hfg.previous?_eq]
    cases g.previous? id with
    | none => rfl
    | some c =>
      rw [Option.bind_some, Option.bind_some]
      rcases hfg.get?_cases c with ⟨hf, hg⟩ | ⟨s, s', hs, hs', hnode⟩
      · rw [hf, hg]
      · rw [hs, hs', Option.filter_some, Option.filter_some, View.src_eq hnode]
        split
        · exact congrArg some (View.src_eq hnode)
        · rfl
  rcases hfg.get?_cases id with ⟨hf, hg⟩ | ⟨n, m, hn, hm, hnode⟩
  · rw [precedingGap?, hf, precedingGap?, hg]
    rfl
  · have hparent : (m.parent?.bind fun p => (f.get? p).bind fun parent =>
        gap? parent.src.offset m.src.offset) = m.parent?.bind fun p => (g.get? p).bind fun parent =>
          gap? parent.src.offset m.src.offset := by
      cases m.parent? with
      | none => rfl
      | some p => exact hfg.bind_eq (fun _ => rfl) p
    rw [precedingGap?_of_get? hn, precedingGap?_of_get? hm, View.parent?_eq hnode,
      View.src_eq hnode, hparent]
    cases hs : ((f.previous? id).bind f.get?).filter fun s => !s.src.isUnknown with
    | none =>
      rw [hs] at hsibling
      rw [Option.map_eq_none_iff.1 hsibling.symm]
    | some s =>
      rw [hs] at hsibling
      obtain ⟨s', hs', hsrc⟩ := Option.map_eq_some_iff.1 hsibling.symm
      rw [hs']
      exact congrArg (fun src : Span => gap? src.stop m.src.offset) hsrc.symm

theorem lastStop?_eq_of_alike (hfg : f.Alike v g) {n m : Node} (hnode : v.node n = v.node m) :
    lastStop? f n = lastStop? g m := by
  have hchildren : (m.children.filterMap f.get?).map v.node =
      (m.children.filterMap g.get?).map v.node := by
    rw [List.map_filterMap, List.map_filterMap]
    exact List.filterMap_congr fun c _ => hfg.nodes c
  have hstops : ∀ cs : List Node, (cs.filter fun c =>
      c.kind ≠ .structuredDocumentation && !c.src.isUnknown).map (·.src.stop) =
      ((cs.map v.node).filter fun c =>
        c.kind ≠ .structuredDocumentation && !c.src.isUnknown).map (·.src.stop) := by
    intro cs
    rw [List.filter_map, List.map_map]
    simp only [Function.comp_def, View.kind_node]
    rfl
  rw [lastStop?, lastStop?, hstops, View.children_eq hnode, hchildren, ← hstops]

theorem danglingGap?_eq_of_alike (hfg : f.Alike v g) (source : List Char) (id : NodeId) :
    danglingGap? f source id = danglingGap? g source id := by
  rw [danglingGap?, danglingGap?]
  rcases hfg.get?_cases id with ⟨hf, hg⟩ | ⟨n, m, hn, hm, hnode⟩
  · rw [hf, hg]
    rfl
  · rw [hn, hm]
    show ((gap? ((lastStop? f n).getD n.src.offset) (n.src.stop - 1)).bind fun gap => _) =
      (gap? ((lastStop? g m).getD m.src.offset) (m.src.stop - 1)).bind fun gap => _
    rw [lastStop?_eq_of_alike hfg hnode, View.src_eq hnode]

theorem alike_make (owner : NodeId) (found : Found) :
    Run.Alike v (make owner found) (make owner found) := by
  refine fun f g hfg => endAlike_get ?_
  have hsource : (f.get? owner).map (fun n => n.src.source) =
      (g.get? owner).map fun n => n.src.source := hfg.map_eq (fun _ => rfl) owner
  rw [hsource]
  exact alike_nextId.bind (fun _ => alike_register rfl) f g hfg

theorem alike_recoverPreceding (source : List Char) (id : NodeId) :
    Run.Alike v (recoverPreceding source id) (recoverPreceding source id) := by
  refine fun f g hfg => endAlike_get ?_
  rw [hfg.documentation?_eq, precedingGap?_eq_of_alike hfg]
  split
  · exact alike_pure _ _ _ hfg
  · split
    · exact alike_pure _ _ _ hfg
    · exact (alike_make id _).bind (fun doc => (alike_attachDocumentation id doc).bind
        fun _ => alike_pure _) f g hfg

theorem alike_recoverDangling (source : List Char) (id : NodeId) :
    Run.Alike v (recoverDangling source id) (recoverDangling source id) := by
  refine fun f g hfg => endAlike_node hfg fun n m _ hnode => endAlike_get ?_
  rw [hfg.dangling?_eq, danglingGap?_eq_of_alike hfg, View.kind_eq hnode]
  split
  · exact alike_pure _ _ _ hfg
  · split
    · exact alike_pure _ _ _ hfg
    · exact (alike_make id _).bind (fun doc => (alike_attachDangling id doc).bind
        fun _ => alike_pure _) f g hfg

theorem alike (hsources : config.sources = config'.sources) : pass.Alike v config config' := by
  refine Pass.alike_of_process (fun n => ?_) fun id f g hfg => endAlike_get ?_
  · show ((v.node n).kind.isDocumentable && !n.src.isUnknown) = _
    rw [View.kind_node]
    rfl
  · rw [source?_eq_of_alike hsources hfg]
    split
    · exact alike_pure _ _ _ hfg
    · exact (alike_recoverPreceding _ id).bind (fun _ => (alike_recoverDangling _ id).bind
        fun _ => alike_pure _) f g hfg

end Comments

/-! ### Conversion -/

/-- The view cannot tell the nodes of a forest that keep their records, or not, from those that do
with the other choice: it shows the records of inline assembly only, which are always kept. -/
def View.Blurs (v : View) (keeps keeps' : Bool) : Prop :=
  keeps = keeps' ∨ ∀ kind, v.records kind → kind = .inlineAssembly

theorem View.node_fresh_eq {v : View} {keeps keeps' : Bool} (h : v.Blurs keeps keeps')
    (id : NodeId) (src : Span) (payload : Payload) (raw : Json) :
    v.node (.fresh id src payload
        (if keeps ∨ payload.kind = .inlineAssembly then some raw else none)) =
      v.node (.fresh id src payload
        (if keeps' ∨ payload.kind = .inlineAssembly then some raw else none)) := by
  rcases h with rfl | hrecords
  · rfl
  · have hraw : (if v.records payload.kind then
          if keeps ∨ payload.kind = .inlineAssembly then some raw else none else none) =
        if v.records payload.kind then
          if keeps' ∨ payload.kind = .inlineAssembly then some raw else none else none := by
      split
      · next hseen =>
        rw [if_pos (.inr (hrecords _ hseen)), if_pos (.inr (hrecords _ hseen))]
      · rfl
    exact congrArg (fun raw? => ({ Node.fresh id src payload none with
      raw? := raw?, payload := v.payload payload } : Node)) hraw

namespace Run

open Forest

variable {v : View} {config : Config} {keeps keeps' : Bool}

theorem alike_run {α : Type} {convert convert' : Json → Run NodeId}
    (h : ∀ r, Alike v (convert r) (convert' r)) (d : Draft α) :
    Alike v (d.run convert) (d.run convert') := by
  induction d with
  | done a => exact alike_pure a
  | fail fault => exact alike_throw fault
  | convert r next ih => exact (h r).bind ih

/-- **Records become nodes that look alike**, whether these keep them or not. -/
theorem alike_convert (hblurs : v.Blurs keeps keeps') (schema : Schema) (levels : Nat) (r : Json) :
    Alike v (convert { config with keepRaw := keeps } schema levels r)
      (convert { config with keepRaw := keeps' } schema levels r) := by
  induction levels generalizing r with
  | zero => exact alike_throw _
  | succ levels ih =>
    intro f g hfg
    refine (alike_ask_const _ f g hfg).bind_of fun (kind, draft) f' hdraft => ?_
    obtain ⟨hdraft, -⟩ := ask_eq_ok.1 hdraft
    have hid : Alike v (idOf r) (idOf r) := by
      refine (alike_ask_const _).bind fun id? => ?_
      cases id? with
      | some id => exact alike_pure id
      | none => exact alike_nextId
    refine hid.bind fun id => (alike_ask_const _).bind fun src f g hfg => ?_
    refine (alike_run ih draft f g hfg).bind_of fun payload f' hpayload => ?_
    -- the payload is of the kind of the record, which decides whether it is kept
    obtain ⟨-, rfl⟩ := Draft.exists_trace_of_run (Schema.wp_draft_kind hdraft) hpayload
    exact (alike_register (View.node_fresh_eq hblurs id src payload _)).bind fun _ => alike_pure id

theorem alike_convertRoot (hblurs : v.Blurs keeps keeps') (schema : Schema) (r : Json) :
    Alike v (convertRoot { config with keepRaw := keeps } schema r)
      (convertRoot { config with keepRaw := keeps' } schema r) :=
  alike_convert hblurs schema config.maxDepth r

end Run

/-! ### Inline assembly -/

/-- All that is needed for the expansion of inline assembly is seen. -/
structure View.SeesAssembly (v : View) : Prop where
  part_eq : v.part = .all
  records : v.records .inlineAssembly

namespace View.SeesAssembly

variable {v : View} (h : v.SeesAssembly)
include h

theorem payload_eq_self (p : Payload) : v.payload p = p := by
  refine Payload.ext_parts ?_ rfl
  show v.part.of p.attributes = p.attributes
  rw [h.part_eq]
  rfl

theorem payload_eq {n m : Node} (hnode : v.node n = v.node m) : n.payload = m.payload := by
  rw [← h.payload_eq_self n.payload, View.payload_eq hnode, h.payload_eq_self]

theorem raw?_eq {n m : Node} (hnode : v.node n = v.node m) (hkind : n.kind = .inlineAssembly) :
    n.raw? = m.raw? := by
  have hraw : (if v.records n.kind then n.raw? else none) =
      if v.records m.kind then m.raw? else none := (congrArg Node.raw? hnode :)
  rwa [← View.kind_eq hnode, hkind, if_pos h.records, if_pos h.records] at hraw

end View.SeesAssembly

namespace Assembly

open Run Forest

variable {v : View} {f g : Forest} {config : Config} {keeps keeps' : Bool}

theorem supports_eq (hsees : v.SeesAssembly) {n m : Node} (hnode : v.node n = v.node m) :
    pass.supports n = pass.supports m := by
  show (n.payload.isUnexpanded && (tree? n).any Json.isObject) =
    (m.payload.isUnexpanded && (tree? m).any Json.isObject)
  rw [hsees.payload_eq hnode]
  cases hempty : m.payload.isUnexpanded with
  | false => rfl
  | true =>
    rw [← hsees.payload_eq hnode, Payload.isUnexpanded, decide_eq_true_eq] at hempty
    rw [tree?, hsees.raw?_eq hnode hempty.1, tree?]

theorem alike_adopt (hsees : v.SeesAssembly) (id yul : NodeId) :
    Run.Alike v (adopt id yul) (adopt id yul) := by
  refine fun f g hfg => endAlike_get ?_
  have hexpand : ((f.get? id).bind fun n => n.payload.expand? yul) =
      (g.get? id).bind fun n => n.payload.expand? yul := by
    refine hfg.bind_eq (fun n => ?_) id
    show (v.payload n.payload).expand? yul = _
    rw [hsees.payload_eq_self]
  rw [hexpand]
  split
  · exact alike_throw _ _ _ hfg
  · next references payload h =>
    refine (endAlike_modify (hfg.attach (fun n hn => ?_) rfl)).bind fun _ => alike_pure references
    rw [← hexpand, hn] at h
    exact congrArg Attributes.kind (Payload.attributes_expand? h)

theorem node_link_eq (hsees : v.SeesAssembly) (references : List ExternalReference) {n m : Node}
    (hnode : v.node n = v.node m) : v.node (link references n) = v.node (link references m) := by
  unfold link
  rw [hsees.payload_eq hnode, View.src_eq hnode]
  split
  · split
    · exact hnode
    · split
      · refine View.node_mapPayload_eq hnode (Attributes.kind_setReferenced _ _) ?_
        rw [hsees.payload_eq hnode]
      · exact hnode
  · exact hnode

theorem alike (hsees : v.SeesAssembly) (hblurs : v.Blurs keeps keeps') :
    pass.Alike v { config with keepRaw := keeps } { config with keepRaw := keeps' } := by
  refine fun id f g hfg => endAlike_get ?_
  rcases hfg.get?_cases id with ⟨hf, hg⟩ | ⟨n, m, hn, hm, hnode⟩
  · rw [hf, hg]
    exact alike_pure _ _ _ hfg
  rw [hn, hm, Option.any_some, Option.any_some, ← supports_eq hsees hnode]
  split
  · next hsupports =>
    -- both nodes are inline assembly, so they have kept the same tree
    have hempty : n.payload.isUnexpanded := (Bool.and_eq_true_iff.1 hsupports).1
    rw [Payload.isUnexpanded, decide_eq_true_eq] at hempty
    have htree : tree? n = tree? m := by rw [tree?, hsees.raw?_eq hnode hempty.1, tree?]
    have hprocess : Run.EndAlike v (process { config with keepRaw := keeps } id)
        (process { config with keepRaw := keeps' } id) f g := by
      refine endAlike_get ?_
      rw [hn, hm, Option.bind_some, Option.bind_some, htree]
      split
      · exact alike_pure _ _ _ hfg
      · next tree _ =>
        refine ((alike_convertRoot hblurs .modern tree).transaction f g hfg).bind fun yul => ?_
        refine (alike_adopt hsees id yul).bind fun references f g hfg => endAlike_get ?_
        have hlink : ∀ k, Run.Alike v (modify (Forest.modify · k (link references)))
            (modify (Forest.modify · k (link references))) := fun k _ _ hfg =>
          endAlike_modify (hfg.modify fun _ _ _ hnode => node_link_eq hsees references hnode)
        rw [hfg.walk_eq]
        exact (alike_forM hlink).bind (fun _ => alike_pure true) f g hfg
    exact hprocess.bind fun _ => alike_pure _
  · exact alike_pure _ _ _ hfg

end Assembly

/-! ### Reads -/

namespace Run

open Forest

variable {v : View} {config : Config} {keeps keeps' : Bool}

theorem alike_postprocess (hsees : v.SeesAssembly) (hblurs : v.Blurs keeps keeps')
    (units : List NodeId) :
    Alike v (postprocess { config with keepRaw := keeps } units)
      (postprocess { config with keepRaw := keeps' } units) := by
  refine Pass.alike_runAll (fun p hp => ?_) units
  simp only [Pass.standard, List.mem_cons, List.not_mem_nil, or_false] at hp
  rcases hp with rfl | rfl | rfl
  · exact Assembly.alike hsees hblurs
  · exact Builtin.alike
  · exact Comments.alike rfl

theorem alike_readRoot (hsees : v.SeesAssembly) (hblurs : v.Blurs keeps keeps')
    (root : Output.Root) :
    Alike v (readRoot { config with keepRaw := keeps } root)
      (readRoot { config with keepRaw := keeps' } root) := by
  unfold readRoot
  split
  · exact alike_throw _
  · next schema _ =>
    refine (alike_convertRoot hblurs schema root.record).bind fun id f g hfg => endAlike_get ?_
    have hplace : Alike v
        (modify (Forest.modifyPayload · id (Payload.mapUnit · (placed root))) >>= fun _ => pure id)
        (modify (Forest.modifyPayload · id (Payload.mapUnit · (placed root))) >>= fun _ =>
          pure id) := by
      refine fun f g hfg => (endAlike_modify (hfg.modifyPayload_same (·.mapUnit (placed root))
        (fun p => Attributes.kind_mapUnit (placed root) p.attributes) (fun p => ?_) id)).bind
          fun _ => alike_pure id
      rw [hsees.payload_eq_self, hsees.payload_eq_self]
    rw [show (f.get? id).bind Node.unit? = (g.get? id).bind Node.unit? from
      hfg.bind_eq View.unit?_node id]
    dsimp only
    split
    · exact (alike_throw _).bind (fun _ => hplace) f g hfg
    · exact hplace f g hfg

theorem alike_readRoots (hsees : v.SeesAssembly) (hblurs : v.Blurs keeps keeps')
    (roots : List Output.Root) :
    Alike v (readRoots { config with keepRaw := keeps } roots)
      (readRoots { config with keepRaw := keeps' } roots) := by
  induction roots with
  | nil => exact alike_pure []
  | cons root rest ih =>
    exact (alike_readRoot hsees hblurs root).bind fun id => ih.bind fun ids => alike_pure _

theorem placeOf_eq_of_alike {f g : Forest} (hfg : f.Alike v g) : placeOf f = placeOf g := by
  funext id
  rw [placeOf, show (f.get? id).bind Node.unit? = (g.get? id).bind Node.unit? from
    hfg.bind_eq View.unit?_node id, placeOf]

/-- **Reads end alike** that differ in whether nodes keep their records, in every view that cannot
tell the difference. -/
theorem alike_read (hsees : v.SeesAssembly) (hblurs : v.Blurs keeps keeps') (output : Json) :
    Alike v (read { config with keepRaw := keeps } output)
      (read { config with keepRaw := keeps' } output) := by
  refine (alike_ask_const _).bind fun roots => Alike.transaction ?_
  refine (alike_readRoots hsees hblurs roots).bind fun ids f g hfg => endAlike_get ?_
  rw [placeOf_eq_of_alike hfg]
  dsimp only
  split
  · exact (alike_postprocess hsees hblurs _).bind (fun _ => alike_pure _) f g hfg
  · exact alike_pure _ f g hfg

end Run

end SolidityTree
