import TableHistory.Entry.Slot
import TableHistory.Operation.Action

namespace TableHistory

-- What a missing or empty body means for a slot.
inductive Presence
  -- It holds the zero record.
  | always
  -- It leaves the slot empty.
  | nonEmpty
  -- It is a fault.
  | required
  -- It leaves the slot empty, and so does a body that cannot be read.
  | probe
deriving DecidableEq

structure SlotRule where
  slot : Slot
  presence : Presence
deriving DecidableEq

-- Which bodies of a pending action hold its plan.
inductive PlanSource
  | cleanPlan
  -- The inflight commit metadata, or else the requested replacement.
  | replaceMetadata
  | compactionPlan
  | logCompactionPlan
deriving DecidableEq

-- What the bodies of an action's instants hold. Building records from live instants, building them
-- from folded operations and folding all follow these rules.
structure Rule where
  kind : Action
  tag : ActionTag
  requested : Option SlotRule := none
  inflight : Option SlotRule := none
  completed : Option SlotRule := none
  -- For the two bodies of a folded operation.
  foldedMetadata : Option SlotRule := none
  foldedPlan : Option SlotRule := none
  -- When the action is the pending one.
  pendingPlan : Option PlanSource := none
deriving DecidableEq

namespace Rule

def clean : Rule where
  kind := .clean
  tag := .clean
  requested := some ⟨.cleanPlan, .always⟩
  inflight := some ⟨.cleanPlan, .always⟩
  completed := some ⟨.cleanMetadata, .always⟩
  foldedMetadata := some ⟨.cleanMetadata, .nonEmpty⟩
  foldedPlan := some ⟨.cleanPlan, .nonEmpty⟩
  pendingPlan := some .cleanPlan

-- A commit that completes a compaction keeps the compaction's plan.
def commit (kind : Action) (tag : ActionTag) : Rule where
  kind := kind
  tag := tag
  completed := some ⟨.commitMetadata, .always⟩
  foldedMetadata := some ⟨.commitMetadata, .nonEmpty⟩
  foldedPlan := some ⟨.compactionPlan, .nonEmpty⟩

-- The plan may be the requested replacement, which is no inflight metadata.
def replacing (kind : Action) (tag : ActionTag) : Rule where
  kind := kind
  tag := tag
  requested := some ⟨.requestedReplaceMetadata, .nonEmpty⟩
  inflight := some ⟨.inflightReplaceMetadata, .nonEmpty⟩
  completed := some ⟨.replaceCommitMetadata, .always⟩
  foldedMetadata := some ⟨.replaceCommitMetadata, .nonEmpty⟩
  foldedPlan := some ⟨.inflightReplaceMetadata, .probe⟩
  pendingPlan := some .replaceMetadata

def rollback : Rule where
  kind := .rollback
  tag := .rollback
  completed := some ⟨.rollbackMetadata, .nonEmpty⟩
  foldedMetadata := some ⟨.rollbackMetadata, .nonEmpty⟩

def savepoint : Rule where
  kind := .savepoint
  tag := .savepoint
  completed := some ⟨.savepointMetadata, .required⟩
  foldedMetadata := some ⟨.savepointMetadata, .required⟩

-- Compactions complete as commits, so they have no completed bodies of their own.
def compacting (kind : Action) (tag : ActionTag) (plan : PlanSource) : Rule where
  kind := kind
  tag := tag
  requested := some ⟨.compactionPlan, .always⟩
  foldedPlan := some ⟨.compactionPlan, .nonEmpty⟩
  pendingPlan := some plan

-- The rule for live instants of a state.
def live (rule : Rule) : State → Option SlotRule
  | .requested => rule.requested
  | .inflight => rule.inflight
  | .completed => rule.completed

-- The slots that some body can fill, with repeats.
def allowedSlots (rule : Rule) : List Slot :=
  [rule.requested, rule.inflight, rule.completed, rule.foldedMetadata, rule.foldedPlan].filterMap
    fun slotRule => slotRule.map SlotRule.slot

def allows (rule : Rule) (slot : Slot) : Bool := slot ∈ rule.allowedSlots

end Rule

def Action.rule : Action → Rule
  | clean => .clean
  | commit => .commit .commit .commit
  | deltaCommit => .commit .deltaCommit .deltaCommit
  | replaceCommit => .replacing .replaceCommit .replaceCommit
  | clustering => .replacing .clustering .clustering
  | rollback => .rollback
  | savepoint => .savepoint
  | compaction => .compacting .compaction .compaction .compactionPlan
  | logCompaction => .compacting .logCompaction .logCompaction .logCompactionPlan

namespace ActionTag

-- The action that records of the tag are of.
def action : ActionTag → Action
  | clean => .clean
  | commit => .commit
  | deltaCommit => .deltaCommit
  | replaceCommit => .replaceCommit
  | clustering => .clustering
  | rollback => .rollback
  | savepoint => .savepoint
  | compaction => .compaction
  | logCompaction => .logCompaction

def rule (tag : ActionTag) : Rule := tag.action.rule

end ActionTag

@[simp] theorem Action.kind_rule (action : Action) : action.rule.kind = action := by
  cases action <;> rfl

@[simp] theorem Action.name_tag (action : Action) : action.rule.tag.name = action.name := by
  cases action <;> rfl

@[simp] theorem Action.action_tag (action : Action) : action.rule.tag.action = action := by
  cases action <;> rfl

@[simp] theorem ActionTag.tag_rule (tag : ActionTag) : tag.rule.tag = tag := by
  cases tag <;> rfl

-- The tag of an action leads back to its rule.
@[simp] theorem Action.rule_tag (action : Action) : action.rule.tag.rule = action.rule := by
  rw [ActionTag.rule, action_tag]

-- Every action has a rule of its own.
theorem Action.rule_inj {action other : Action} : action.rule = other.rule ↔ action = other := by
  constructor
  · intro h
    rw [← kind_rule action, h, kind_rule]
  · intro h
    rw [h]

-- Every action has a tag of its own.
theorem Action.tag_inj {action other : Action} :
    action.rule.tag = other.rule.tag ↔ action = other := by
  constructor
  · intro h
    rw [← action_tag action, h, action_tag]
  · intro h
    rw [h]

end TableHistory
