import SolidityTree.Proofs.Visits

/-!
# How deep records are nested

A conversion stops at a record that is nested deeper than the configuration allows.  The visits of a
read are listed here once more, each with the depth of its record: that of the root of a unit is 1,
and the records below a record are one deeper (`NestedVisits`).

A run that succeeds is compared with the same run under another limit (`Run.Guarded`).  Up to the
first record that is too deep the two do the same, so either no record is too deep and the second
run ends as the first one, or the second run stops at that record.  This is shown for each way in
which runs are put together, and for conversions by induction on the levels.

Main statement: `Run.read_limit`.
-/

namespace SolidityTree

open Forest

/-- A visit, and how deep the record is nested. -/
structure NestedVisit where
  depth : Nat
  visit : Visit

/-- The visits of a run that starts in a given forest, with the depths of the records. -/
abbrev NestedVisits := Forest → List NestedVisit

variable {α β : Type} {f g : Forest} {config : Config} {limit : Nat}

namespace NestedVisits

/-- Those of a run that visits nothing. -/
def idle : NestedVisits := fun _ => []

/-- The visits of a run, and those of what goes on from it if it succeeds. -/
def andThen (visits : NestedVisits) (run : Run α) (next : α → NestedVisits) : NestedVisits :=
  fun f => visits f ++ match run f with
    | .ok a g => next a g
    | .error _ _ => []

/-- The visits without the depths. -/
def flat (visits : NestedVisits) : Visits := fun f => (visits f).map NestedVisit.visit

variable {visits : NestedVisits} {run : Run α} {next : α → NestedVisits}

theorem andThen_of_ok {a : α} (h : run f = .ok a g) :
    visits.andThen run next f = visits f ++ next a g := by
  rw [andThen, h]

theorem andThen_idle (visits : NestedVisits) (run : Run α) :
    visits.andThen run (fun _ => idle) = visits := by
  funext f
  unfold andThen
  cases run f <;> exact List.append_nil _

theorem flat_andThen (visits : NestedVisits) (run : Run α) (next : α → NestedVisits) :
    (visits.andThen run next).flat = visits.flat.andThen run fun a => (next a).flat := by
  funext f
  unfold flat andThen Visits.andThen
  rw [List.map_append]
  cases run f <;> rfl

end NestedVisits

open NestedVisits

/-- The visits of the records that a draft converts. -/
def Draft.nestedVisits (convert : Json → Run NodeId) (visits : Json → NestedVisits) :
    Draft α → NestedVisits
  | .done _ => idle
  | .fail _ => idle
  | .convert r next =>
    (visits r).andThen (convert r) fun id => (next id).nestedVisits convert visits

namespace Run

/-- The visits of a conversion: that of the record itself first, then those of the records below,
one deeper. -/
def convertNested (config : Config) (schema : Schema) : Nat → Nat → Json → NestedVisits
  | 0, _, _ => idle
  | levels + 1, depth, r =>
    idle.andThen (ask fun _ => schema.draft r) fun (_, draft) =>
      idle.andThen (idOf r) fun id f => ⟨depth, r, id⟩ ::
        (idle.andThen (ask fun _ => Record.src r) fun _ =>
          draft.nestedVisits (convert config schema levels)
            (convertNested config schema levels (depth + 1))) f

/-- The visits of the root of a unit. -/
def rootNested (config : Config) (root : Output.Root) : NestedVisits :=
  match Schema.detect? root.record with
  | none => idle
  | some schema => convertNested config schema config.maxDepth 1 root.record

/-- The visits of the roots of units. -/
def rootsNested (config : Config) : List Output.Root → NestedVisits
  | [] => idle
  | root :: rest =>
    (rootNested config root).andThen (readRoot config root) fun _ => rootsNested config rest

/-- The visits of a read without passes. -/
def readNested (config : Config) (output : Json) : NestedVisits :=
  idle.andThen (ask fun _ => Output.roots output) fun roots f => rootsNested config roots f.begin

/-! ### Visits without depths -/

theorem flat_nestedVisits {convert : Json → Run NodeId} {nested : Json → NestedVisits}
    {visits : Json → Visits} (h : ∀ r, (nested r).flat = visits r) (d : Draft α) :
    (d.nestedVisits convert nested).flat = d.visits convert visits := by
  induction d with
  | done a => rfl
  | fail fault => rfl
  | convert r next ih =>
    rw [Draft.nestedVisits, Draft.visits, flat_andThen, h]
    simp only [ih]

theorem flat_convertNested (config : Config) (schema : Schema) (levels depth : Nat) (r : Json) :
    (convertNested config schema levels depth r).flat = convertVisits config schema levels r := by
  induction levels generalizing depth r with
  | zero => rfl
  | succ levels ih =>
    have hbelow : ∀ {draft : Draft Payload}, (draft.nestedVisits (convert config schema levels)
        (convertNested config schema levels (depth + 1))).flat =
          draft.visits (convert config schema levels) (convertVisits config schema levels) :=
      flat_nestedVisits (ih (depth + 1)) _
    rw [convertNested, convertVisits, flat_andThen]
    apply congrArg
    funext (kind, draft)
    rw [flat_andThen]
    apply congrArg
    funext id f
    apply congrArg (Visit.mk r id :: ·)
    show (NestedVisits.flat _) f = _
    rw [flat_andThen, hbelow]
    rfl

theorem flat_rootsNested (config : Config) (roots : List Output.Root) :
    (rootsNested config roots).flat = rootsVisits config roots := by
  induction roots with
  | nil => rfl
  | cons root rest ih =>
    have hroot : (rootNested config root).flat = rootVisits config root := by
      unfold rootNested rootVisits
      cases Schema.detect? root.record with
      | none => rfl
      | some schema => exact flat_convertNested config schema config.maxDepth 1 root.record
    rw [rootsNested, rootsVisits, flat_andThen, hroot, ih]

/-- Where no pass visits anything, these are the visits of a read. -/
theorem flat_readNested (hoff : config.postprocess = false) (output : Json) :
    (readNested config output).flat = readVisits config output := by
  rw [readNested, readVisits, flat_andThen]
  apply congrArg
  funext roots f
  have hunits : unitsVisits config roots = rootsVisits config roots := by
    unfold unitsVisits
    simp only [hoff, Bool.false_eq_true, if_false, Visits.andThen_idle]
  rw [hunits, ← flat_rootsNested]
  rfl

/-! ### Runs under another limit -/

/-- Where the first run succeeds, the second one ends in the same way if no record is nested deeper
than the limit allows, and otherwise it stops because of the limit. -/
structure Guarded (limit : Nat) (run run' : Run α) (visits : NestedVisits) : Prop where
  eq_ok : ∀ {f a g}, run f = .ok a g → (∀ v ∈ visits f, v.depth ≤ limit) → run' f = .ok a g
  tooDeep : ∀ {f a g}, run f = .ok a g → (∃ v ∈ visits f, limit < v.depth) →
    ∃ h, run' f = .error (.tooDeep limit) h

namespace Guarded

variable {run run' : Run α} {visits : NestedVisits}

/-- A run that visits nothing does not depend on the limit. -/
theorem refl (run : Run α) : Guarded limit run run idle where
  eq_ok h _ := h
  tooDeep _ h := by
    obtain ⟨v, hv, -⟩ := h
    contradiction

/-- A run that never succeeds has nothing to answer for. -/
theorem throw (fault : Fault) (run' : Run α) (visits : NestedVisits) :
    Guarded limit (throw fault) run' visits where
  eq_ok h := by contradiction
  tooDeep h := by contradiction

theorem andThen {next next' : α → Run β} {rest : α → NestedVisits}
    (hrun : Guarded limit run run' visits)
    (hnext : ∀ a, Guarded limit (next a) (next' a) (rest a)) :
    Guarded limit (run >>= next) (run' >>= next') (visits.andThen run rest) where
  eq_ok {f b g} h hall := by
    obtain ⟨a, f', ha, hb⟩ := bind_eq_ok.1 h
    rw [andThen_of_ok ha] at hall
    obtain ⟨hfirst, hrest⟩ := List.forall_mem_append.1 hall
    rw [bind_of_ok (hrun.eq_ok ha hfirst)]
    exact (hnext a).eq_ok hb hrest
  tooDeep {f b g} h hdeep := by
    obtain ⟨a, f', ha, hb⟩ := bind_eq_ok.1 h
    rw [andThen_of_ok ha] at hdeep
    obtain ⟨v, hv, hlt⟩ := hdeep
    -- the second run stops at the first record that is too deep
    by_cases hfirst : ∀ w ∈ visits f, w.depth ≤ limit
    · have hin : v ∈ rest a f' := by
        apply (List.mem_append.1 hv).resolve_left
        intro hearly
        have := hfirst v hearly
        omega
      rw [bind_of_ok (hrun.eq_ok ha hfirst)]
      exact (hnext a).tooDeep hb ⟨v, hin, hlt⟩
    · push Not at hfirst
      obtain ⟨h, hstop⟩ := hrun.tooDeep ha hfirst
      exact ⟨h, bind_of_error hstop next'⟩

/-- What follows visits nothing more. -/
theorem thenSame (hrun : Guarded limit run run' visits) (next : α → Run β) :
    Guarded limit (run >>= next) (run' >>= next) visits := by
  have h := hrun.andThen fun a => refl (next a)
  rwa [andThen_idle] at h

theorem cons (hrun : Guarded limit run run' visits) {v : NestedVisit} (hv : v.depth ≤ limit) :
    Guarded limit run run' fun f => v :: visits f where
  eq_ok h hall := hrun.eq_ok h (List.forall_mem_cons.1 hall).2
  tooDeep h hdeep := by
    obtain ⟨w, hw, hlt⟩ := hdeep
    apply hrun.tooDeep h
    rcases List.mem_cons.1 hw with rfl | hw
    · omega
    · exact ⟨w, hw, hlt⟩

theorem transaction (hrun : Guarded limit run run' visits) :
    Guarded limit (transaction run) (transaction run') fun f => visits f.begin where
  eq_ok h hall := by
    obtain ⟨g, hok, hend⟩ := transaction_eq_ok.1 h
    exact transaction_eq_ok.2 ⟨g, hrun.eq_ok hok hall, hend⟩
  tooDeep h hdeep := by
    obtain ⟨g, hok, -⟩ := transaction_eq_ok.1 h
    obtain ⟨g', hstop⟩ := hrun.tooDeep hok hdeep
    rw [Run.transaction, hstop]
    exact ⟨_, rfl⟩

end Guarded

/-- A draft stops where the conversion of a record stops. -/
theorem guarded_draft {convert convert' : Json → Run NodeId} {nested : Json → NestedVisits}
    (h : ∀ r, Guarded limit (convert r) (convert' r) (nested r)) (d : Draft α) :
    Guarded limit (d.run convert) (d.run convert') (d.nestedVisits convert nested) := by
  induction d with
  | done a => exact .refl _
  | fail fault => exact .refl _
  | convert r next ih => exact (h r).andThen ih

/-- A record that has become a node has been visited. -/
theorem exists_mem_convertNested {schema : Schema} {levels : Nat} {r : Json} {id : NodeId}
    (h : convert config schema levels r f = .ok id g) (depth : Nat) :
    ∃ v ∈ convertNested config schema levels depth r f, v.depth = depth := by
  cases levels with
  | zero => contradiction
  | succ levels =>
    obtain ⟨⟨kind, draft⟩, f', hdraft, h⟩ := bind_eq_ok.1 h
    obtain ⟨id', g', hid, -⟩ := bind_eq_ok.1 h
    rw [convertNested, andThen_of_ok hdraft]
    dsimp only
    rw [andThen_of_ok hid]
    exact ⟨⟨depth, r, id'⟩, List.mem_cons_self, rfl⟩

/-- The records that are too deep are those for which no level is left. -/
theorem guarded_convert (config : Config) (schema : Schema) {levels levels' depth : Nat}
    (hlevels : depth + levels' = limit + 1) (r : Json) :
    Guarded limit (convert config schema levels r)
      (convert { config with maxDepth := limit } schema levels' r)
      (convertNested config schema levels depth r) := by
  -- on the levels of the first run; the records below are nested one deeper
  induction levels generalizing levels' depth r with
  | zero => exact .throw _ _ _
  | succ levels ih =>
    cases levels' with
    | zero =>
      -- the record itself is too deep
      constructor
      · intro f id g h hall
        obtain ⟨v, hv, hdepth⟩ := exists_mem_convertNested h depth
        have hle := hall v hv
        omega
      · intro f id g h hdeep
        exact ⟨f, rfl⟩
    | succ levels' =>
      have hbelow : ∀ r, Guarded limit (convert config schema levels r)
          (convert { config with maxDepth := limit } schema levels' r)
          (convertNested config schema levels (depth + 1) r) := by
        intro r
        exact ih (by omega) r
      rw [convertNested]
      apply (Guarded.refl _).andThen
      rintro ⟨kind, draft⟩
      apply (Guarded.refl _).andThen
      intro id
      apply Guarded.cons
      · apply (Guarded.refl _).andThen
        intro src
        exact (guarded_draft hbelow draft).thenSame _
      · show depth ≤ limit
        omega

theorem guarded_readRoot (limit : Nat) (config : Config) (root : Output.Root) :
    Guarded limit (readRoot config root) (readRoot { config with maxDepth := limit } root)
      (rootNested config root) := by
  unfold readRoot rootNested
  cases Schema.detect? root.record with
  | none => exact .refl _
  | some schema =>
    apply Guarded.thenSame
    exact guarded_convert config schema (Nat.add_comm 1 limit) root.record

theorem guarded_readRoots (limit : Nat) (config : Config) (roots : List Output.Root) :
    Guarded limit (readRoots config roots) (readRoots { config with maxDepth := limit } roots)
      (rootsNested config roots) := by
  induction roots with
  | nil => exact .refl _
  | cons root rest ih =>
    apply (guarded_readRoot limit config root).andThen
    intro id
    exact ih.thenSame _

theorem guarded_read (hoff : config.postprocess = false) (limit : Nat) (output : Json) :
    Guarded limit (read config output) (read { config with maxDepth := limit } output)
      (readNested config output) := by
  apply (Guarded.refl _).andThen
  intro roots
  apply Guarded.transaction
  have hunits := (guarded_readRoots limit config roots).thenSame fun ids => do
    let f ← get
    return ids.mergeSort fun a b => placeOf f a ≤ placeOf f b
  simpa [readUnits, hoff] using hunits

/-! ### The limit of a read -/

/-- The depth of the record that is nested deepest, and 0 if there is none. -/
def deepest (vs : List NestedVisit) : Nat := (vs.map NestedVisit.depth).foldr max 0

theorem deepest_le_iff {vs : List NestedVisit} :
    deepest vs ≤ limit ↔ ∀ v ∈ vs, v.depth ≤ limit := by
  induction vs with
  | nil => simp [deepest]
  | cons v rest ih =>
    rw [List.forall_mem_cons, ← ih]
    exact Nat.max_le

theorem lt_deepest_iff {vs : List NestedVisit} :
    limit < deepest vs ↔ ∃ v ∈ vs, limit < v.depth := by
  rw [← Nat.not_le, deepest_le_iff]
  push Not
  rfl

/-- **The limit is met exactly by records that are nested deeper.**  A read that succeeds has
visited none; under any limit that allows the deepest record it ends in the same way, and under a
smaller one it fails because of that limit. -/
theorem read_limit {units : List NodeId} {output : Json} (hoff : config.postprocess = false)
    (h : read config output f = .ok units g) :
    (readNested config output).flat = readVisits config output ∧
      deepest (readNested config output f) ≤ config.maxDepth ∧
      ∀ limit,
        (deepest (readNested config output f) ≤ limit →
          read { config with maxDepth := limit } output f = .ok units g) ∧
        (limit < deepest (readNested config output f) →
          ∃ g', read { config with maxDepth := limit } output f = .error (.tooDeep limit) g') := by
  refine ⟨flat_readNested hoff output, ?_, ?_⟩
  · -- otherwise this very read would have stopped
    by_contra hdeep
    rw [Nat.not_le, lt_deepest_iff] at hdeep
    obtain ⟨g', hstop⟩ := (guarded_read hoff config.maxDepth output).tooDeep h hdeep
    rw [h] at hstop
    contradiction
  · intro limit
    have hguarded := guarded_read hoff limit output
    constructor
    · intro hle
      exact hguarded.eq_ok h (deepest_le_iff.1 hle)
    · intro hlt
      exact hguarded.tooDeep h (lt_deepest_iff.1 hlt)

/-- A block in a block in a unit. -/
def blockInBlock : Json :=
  .object [("nodeType", .string "SourceUnit"), ("id", .int 1), ("nodes", .array
    [.object [("nodeType", .string "Block"), ("id", .int 2), ("statements", .array
      [.object [("nodeType", .string "Block"), ("id", .int 3), ("statements", .array [])]])]])]

/-- Without passes, as deep as 1024 records. -/
def withoutPasses : Config := { Config.standard with postprocess := false }

/-- The inner block is allowed by a limit of 3, and by no smaller one. -/
theorem read_limit_blockInBlock :
    withoutPasses.postprocess = false ∧
      ∃ g, read withoutPasses blockInBlock (empty 0) = .ok [1] g ∧
        read { withoutPasses with maxDepth := 3 } blockInBlock (empty 0) = .ok [1] g ∧
        ∃ g', read { withoutPasses with maxDepth := 2 } blockInBlock (empty 0) =
          .error (.tooDeep 2) g' := by
  have hread : read withoutPasses blockInBlock =
      transaction (readUnits withoutPasses [Output.Root.ofRecord blockInBlock]) :=
    read_eq_transaction rfl
  have hends : seen? (read withoutPasses blockInBlock) (fun units _ => units) (empty 0) =
      some [1] := by
    rw [hread, readUnits_singleton]
    decide +kernel
  have hdeepest : deepest (readNested withoutPasses blockInBlock (empty 0)) = 3 := by
    decide +kernel
  obtain ⟨units, g, h, rfl⟩ := seen?_eq_some hends
  obtain ⟨-, -, hlimit⟩ := read_limit rfl h
  rw [hdeepest] at hlimit
  exact ⟨rfl, g, h, (hlimit 3).1 (by decide), (hlimit 2).2 (by decide)⟩

end Run

end SolidityTree
