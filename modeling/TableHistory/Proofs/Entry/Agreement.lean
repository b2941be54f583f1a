import TableHistory.Proofs.Entry.Filling

namespace TableHistory.Entry

variable {config : ArchiveConfig} {reader : InstantReader} {action : Action}
  {time completion : String} {version : UInt32} {metadata plan : Option Bytes} {body : Bytes}

-- How the bodies of an operation are read.
def sourceOf (config : ArchiveConfig) (time : String) (action : Action) : BodySource :=
  ⟨time, action, .ofVersion config.tableVersion⟩

-- The rules for completed instants and for folded metadata differ on empty bodies only.
theorem fill_completed (entry : Entry) (source : BodySource) (action : Action) (h : body ≠ []) :
    (entry.fill source action.rule.completed body).result =
      (entry.fill source action.rule.foldedMetadata body).result := by
  have hread : ∀ slot presence other, presence ≠ .probe → other ≠ .probe →
      (entry.fill source (some ⟨slot, presence⟩) body).result =
        (entry.fill source (some ⟨slot, other⟩) body).result := by
    intro slot presence other hp ho
    rw [fill_of_ne_nil entry source hp h, fill_of_ne_nil entry source ho h]
  cases action with
  | clean => exact hread _ _ _ nofun nofun
  | commit => exact hread _ _ _ nofun nofun
  | deltaCommit => exact hread _ _ _ nofun nofun
  | replaceCommit => exact hread _ _ _ nofun nofun
  | clustering => exact hread _ _ _ nofun nofun
  | rollback => exact hread _ _ _ nofun nofun
  | savepoint => exact hread _ _ _ nofun nofun
  | compaction => rfl
  | logCompaction => rfl

-- No plan fills no slot.
theorem fill_foldedPlan_nil (entry : Entry) (source : BodySource) (action : Action) :
    (entry.fill source action.rule.foldedPlan []).result = .ok entry := by
  cases action <;> rfl

theorem ofInstant_completed
    (hread : reader ⟨time, action, .completed, some completion⟩ = .ok body) :
    (ofInstant config reader ⟨time, action, .completed, some completion⟩).result =
      if body = [] then .ok (header time .completed (some completion) action)
      else ((header time .completed (some completion) action).fill (sourceOf config time action)
        action.rule.foldedMetadata body).result := by
  simp only [ofInstant, hread, Traced.result_bind]
  by_cases hbody : body = []
  · subst hbody
    rfl
  · have hne : body.isEmpty = false := by simpa using hbody
    rw [if_neg hbody, ← fill_completed _ _ _ hbody]
    simp only [mapError_ok, Traced.result_ofExcept, ok_bind, hne, Bool.and_false,
      Bool.false_eq_true, if_false]
    rfl

theorem ofFolded_result (hversion : config.tableVersion.atLeast foldedFrom = true) :
    (ofFolded config ⟨time, completion, action.name, version, metadata, plan⟩).result =
      if metadata.getD [] = [] ∧ (plan.getD [] = [] ∨ action.rule.foldedMetadata.isSome) then
        .ok (header time .completed (some completion) action)
      else (do
        let entry ← ((header time .completed (some completion) action).fill
          (sourceOf config time action) action.rule.foldedMetadata (metadata.getD [])).result
        (entry.fill (sourceOf config time action) action.rule.foldedPlan
          (plan.getD [])).result) := by
  simp only [ofFolded, hversion, Bool.not_true, Bool.false_eq_true, if_false, Action.ofName?_name,
    List.isEmpty_iff, Bool.and_eq_true, Bool.or_eq_true, sourceOf]
  split
  · simp only [Traced.result_bind, Traced.result_note, Traced.result_pure, ok_bind]
  · simp only [Traced.result_bind]

-- Only compactions have no completed body to archive.
theorem foldedMetadata_eq_none :
    action.rule.foldedMetadata = none ↔ action = .compaction ∨ action = .logCompaction := by
  cases action <;> decide

theorem ofFolded_empty (hversion : config.tableVersion.atLeast foldedFrom = true)
    (hbody : metadata.getD [] = []) (hkind : ¬ (action = .compaction ∨ action = .logCompaction)) :
    (ofFolded config ⟨time, completion, action.name, version, metadata, plan⟩).result =
      .ok (header time .completed (some completion) action) := by
  have harchived : action.rule.foldedMetadata.isSome = true := by
    apply Option.isSome_iff_ne_none.mpr
    intro hnone
    exact hkind (foldedMetadata_eq_none.mp hnone)
  rw [ofFolded_result hversion, if_pos ⟨hbody, .inr harchived⟩]

-- Filling both slots one after the other is all that happens, unless the completed body is missing.
theorem ofFolded_fills (hversion : config.tableVersion.atLeast foldedFrom = true)
    (h : metadata.getD [] = [] → action.rule.foldedMetadata = none) :
    (ofFolded config ⟨time, completion, action.name, version, metadata, plan⟩).result = (do
      let entry ← ((header time .completed (some completion) action).fill
        (sourceOf config time action) action.rule.foldedMetadata (metadata.getD [])).result
      (entry.fill (sourceOf config time action) action.rule.foldedPlan (plan.getD [])).result) := by
  rw [ofFolded_result hversion]
  split
  · rename_i hempty
    obtain ⟨hbody, hplan⟩ := hempty
    have hnone := h hbody
    have hplan : plan.getD [] = [] := by simpa [hnone] using hplan
    rw [hplan, hnone]
    exact (fill_foldedPlan_nil _ _ action).symm
  · rfl

-- The record of a folded operation is that of its completed instant, filled from the plan.
theorem ofFolded_eq (hversion : config.tableVersion.atLeast foldedFrom = true)
    (hread : reader ⟨time, action, .completed, some completion⟩ = .ok (metadata.getD []))
    (h : metadata.getD [] = [] → action = .compaction ∨ action = .logCompaction) :
    (ofFolded config ⟨time, completion, action.name, version, metadata, plan⟩).result = (do
      let entry ← (ofInstant config reader ⟨time, action, .completed, some completion⟩).result
      (entry.fill (sourceOf config time action) action.rule.foldedPlan (plan.getD [])).result) := by
  have hmissing : metadata.getD [] = [] → action.rule.foldedMetadata = none :=
    fun hbody => foldedMetadata_eq_none.mpr (h hbody)
  rw [ofFolded_fills hversion hmissing, ofInstant_completed hread]
  by_cases hbody : metadata.getD [] = []
  · rw [if_pos hbody, hmissing hbody]
    rfl
  · rw [if_neg hbody]

theorem ofFolded_ok (hversion : config.tableVersion.atLeast foldedFrom = true)
    (hread : reader ⟨time, action, .completed, some completion⟩ = .ok (metadata.getD []))
    (hbody : metadata.getD [] = [] → action = .compaction ∨ action = .logCompaction) {entry : Entry}
    (h : (ofInstant config reader ⟨time, action, .completed, some completion⟩).result =
      .ok entry) :
    (ofFolded config ⟨time, completion, action.name, version, metadata, plan⟩).result =
      (entry.fill (sourceOf config time action) action.rule.foldedPlan (plan.getD [])).result := by
  rw [ofFolded_eq hversion hread hbody, h, ok_bind]

-- A fault of the completed instant is one of the folded operation.
theorem ofFolded_error (hversion : config.tableVersion.atLeast foldedFrom = true)
    (hread : reader ⟨time, action, .completed, some completion⟩ = .ok (metadata.getD []))
    {fault : ArchiveFault}
    (h : (ofInstant config reader ⟨time, action, .completed, some completion⟩).result =
      .error fault) :
    (ofFolded config ⟨time, completion, action.name, version, metadata, plan⟩).result =
      .error fault := by
  have hne : metadata.getD [] ≠ [] := by
    intro hempty
    rw [ofInstant_completed hread, if_pos hempty] at h
    cases h
  rw [ofFolded_eq hversion hread (absurd · hne), h, error_bind]

-- Actions whose plans have a slot of their own, which a plan has to be readable for.
def plannedSlots : List (Action × Slot) :=
  [(.clean, .cleanPlan), (.commit, .compactionPlan), (.deltaCommit, .compactionPlan),
    (.compaction, .compactionPlan), (.logCompaction, .compactionPlan)]

theorem fill_planned {slot : Slot} (h : (action, slot) ∈ plannedSlots) (entry : Entry) :
    (entry.fill (sourceOf config time action) action.rule.foldedPlan body).result =
      if body = [] then .ok entry
      else ((Framed.read slot.message body).mapError (.payload time action slot)).map fun value =>
        entry.insert ⟨slot, value⟩ := by
  have hrule : action.rule.foldedPlan = some ⟨slot, .nonEmpty⟩ ∧
      (sourceOf config time action).readSlot body slot =
        (sourceOf config time action).readRecord slot body := by
    simp only [plannedSlots, List.mem_cons, Prod.mk.injEq, List.not_mem_nil, or_false] at h
    rcases h with ⟨rfl, rfl⟩ | ⟨rfl, rfl⟩ | ⟨rfl, rfl⟩ | ⟨rfl, rfl⟩ | ⟨rfl, rfl⟩ <;>
      exact ⟨rfl, rfl⟩
  rw [hrule.1, fill_nonEmpty, hrule.2]
  by_cases hbody : body = []
  · rw [if_pos hbody, if_pos hbody]
  · rw [if_neg hbody, if_neg hbody, BodySource.readRecord_of_ne_nil _ _ hbody]
    rfl

-- The inflight metadata that a plan gives, if it is any.
def inflightOf (plan : Bytes) : Option CommitRecord :=
  if plan = [] then none
  else (Metadata.decode .plain plan).result.toOption.map fun metadata => metadata.body.asPlain

theorem fill_replacing (hversion : config.tableVersion.atLeast foldedFrom = true)
    (h : action = .replaceCommit ∨ action = .clustering) (entry : Entry) :
    (entry.fill (sourceOf config time action) action.rule.foldedPlan body).result =
      .ok (match inflightOf body with
        | some record => entry.insert ⟨.inflightReplaceMetadata, record⟩
        | none => entry) := by
  have hrule : action.rule.foldedPlan = some ⟨.inflightReplaceMetadata, .probe⟩ := by
    rcases h with rfl | rfl <;> rfl
  have hera : Era.ofVersion config.tableVersion = .structured := if_pos hversion
  rw [hrule, fill_probe]
  by_cases hbody : body = []
  · have hnone : inflightOf body = none := if_pos hbody
    rw [if_pos hbody, hnone]
  · simp only [inflightOf, hbody, if_false, BodySource.readSlot, BodySource.readCommit, sourceOf,
      hera, Era.decode, Traced.result_bind, Traced.result_mapFault]
    cases (Metadata.decode .plain body).result with
    | ok metadata => rfl
    | error fault => rfl

-- A completed body fills no slot but its own.
theorem payload_ofInstant {entry : Entry} {slot : Slot}
    (hread : reader ⟨time, action, .completed, some completion⟩ = .ok body)
    (h : (ofInstant config reader ⟨time, action, .completed, some completion⟩).result = .ok entry)
    (hslot : ∀ rule ∈ action.rule.foldedMetadata, slot ≠ rule.slot) :
    entry.payload slot = none := by
  rw [ofInstant_completed hread] at h
  split at h
  · rw [← Except.ok.inj h]
    rfl
  · rcases fill_cases _ _ h with rfl | ⟨rule, hrule, value, _, rfl⟩
    · rfl
    · exact payload_insert_of_ne _ (hslot rule hrule)

-- A plan of a replacing action goes to the inflight slot, which the completed body leaves empty,
-- and nowhere else.
theorem fill_replacing_agrees (hversion : config.tableVersion.atLeast foldedFrom = true)
    (h : action = .replaceCommit ∨ action = .clustering) {entry : Entry} {completed : Bytes}
    (hread : reader ⟨time, action, .completed, some completion⟩ = .ok completed)
    (hlive : (ofInstant config reader ⟨time, action, .completed, some completion⟩).result =
      .ok entry) :
    ∃ other, (entry.fill (sourceOf config time action) action.rule.foldedPlan body).result =
        .ok other ∧ AgreeBut .inflightReplaceMetadata entry other ∧
      other.payload .inflightReplaceMetadata = inflightOf body := by
  have hnone : entry.payload .inflightReplaceMetadata = none := by
    apply payload_ofInstant hread hlive
    rcases h with rfl | rfl <;> decide
  rw [fill_replacing hversion h]
  cases inflightOf body with
  | none => exact ⟨entry, rfl, .refl _ entry, hnone⟩
  | some record =>
      exact ⟨_, rfl, entry.agreeBut_insert _ _,
        entry.payload_insert .inflightReplaceMetadata record⟩

theorem fill_planned_error {slot : Slot} (h : (action, slot) ∈ plannedSlots) (entry : Entry)
    (hne : body ≠ []) {fault : DecodeFault} (hread : Framed.read slot.message body = .error fault) :
    (entry.fill (sourceOf config time action) action.rule.foldedPlan body).result =
      .error (.payload time action slot fault) := by
  rw [fill_planned h, if_neg hne, hread]
  rfl

theorem fill_planned_ok {slot : Slot} (h : (action, slot) ∈ plannedSlots) (entry : Entry)
    (hne : body ≠ []) {value : slot.Value} (hread : Framed.read slot.message body = .ok value) :
    ∃ other, (entry.fill (sourceOf config time action) action.rule.foldedPlan body).result =
        .ok other ∧ AgreeBut slot entry other ∧ other.payload slot = some value := by
  rw [fill_planned h, if_neg hne, hread]
  exact ⟨_, rfl, entry.agreeBut_insert slot value, entry.payload_insert slot value⟩

-- The two ways into the archive agree on every operation. Without a completed body that its action
-- would have, both leave the header. Otherwise a fault of the completed instant is one of the
-- folded operation, and the records differ at most by the plan: probed plans fill the inflight slot
-- if they can, planned actions fail on plans that they cannot read, and others have no plan.
theorem ofFolded_agrees (config : ArchiveConfig) (reader : InstantReader) (action : Action)
    (time completion : String) (version : UInt32) (metadata plan : Option Bytes)
    (hversion : config.tableVersion.atLeast foldedFrom = true)
    (hread : reader ⟨time, action, .completed, some completion⟩ = .ok (metadata.getD [])) :
    let live := (ofInstant config reader ⟨time, action, .completed, some completion⟩).result
    let folded :=
      (ofFolded config ⟨time, completion, action.name, version, metadata, plan⟩).result
    let headerOnly := header time .completed (some completion) action
    (metadata.getD [] = [] → ¬ (action = .compaction ∨ action = .logCompaction) →
      live = .ok headerOnly ∧ folded = .ok headerOnly) ∧
    (∀ fault, live = .error fault → folded = .error fault) ∧
    ((metadata.getD [] = [] → action = .compaction ∨ action = .logCompaction) →
      ∀ entry, live = .ok entry →
      (action = .rollback ∨ action = .savepoint → folded = .ok entry) ∧
      (action = .replaceCommit ∨ action = .clustering →
        ∃ other, folded = .ok other ∧ AgreeBut .inflightReplaceMetadata entry other ∧
          other.payload .inflightReplaceMetadata = inflightOf (plan.getD [])) ∧
      ∀ slot, (action, slot) ∈ plannedSlots →
        (plan.getD [] = [] → folded = .ok entry) ∧
        (plan.getD [] ≠ [] →
          (∀ fault, Framed.read slot.message (plan.getD []) = .error fault →
            folded = .error (.payload time action slot fault)) ∧
          ∀ value, Framed.read slot.message (plan.getD []) = .ok value →
            ∃ other, folded = .ok other ∧ AgreeBut slot entry other ∧
              other.payload slot = some value)) := by
  intro live folded headerOnly
  refine ⟨?_, ?_, ?_⟩
  · intro hbody hkind
    constructor
    · exact (ofInstant_completed hread).trans (if_pos hbody)
    · exact ofFolded_empty hversion hbody hkind
  · intro fault hfault
    exact ofFolded_error hversion hread hfault
  · intro hbody entry hlive
    have hfolded : folded = (entry.fill (sourceOf config time action) action.rule.foldedPlan
        (plan.getD [])).result := ofFolded_ok hversion hread hbody hlive
    rw [hfolded]
    refine ⟨?_, ?_, ?_⟩
    · rintro (rfl | rfl)
      · rfl
      · rfl
    · intro hreplacing
      exact fill_replacing_agrees hversion hreplacing hread hlive
    · intro slot hslot
      constructor
      · intro hplan
        rw [hplan, fill_foldedPlan_nil]
      · intro hplan
        constructor
        · intro fault hfault
          exact fill_planned_error hslot entry hplan hfault
        · intro value hvalue
          exact fill_planned_ok hslot entry hplan hvalue

-- A compaction without a completed body, and with a plan that is none.
theorem ofFolded_agrees_unreadable_plan :
    TableVersion.current.atLeast foldedFrom = true ∧
      (ofFolded {} ⟨"1", "2", "compaction", 1, none, some [0]⟩).result =
        .error (.payload "1" .compaction .compactionPlan (.missingHeader 1)) := by
  have hagrees := ofFolded_agrees {} (fun _ => .ok []) .compaction "1" "2" 1 none (some [0])
    (by decide) rfl
  have hplan := (hagrees.2.2 (fun _ => .inl rfl) _ rfl).2.2 .compactionPlan (by decide)
  exact ⟨by decide, (hplan.2 nofun).1 _ rfl⟩

end TableHistory.Entry
