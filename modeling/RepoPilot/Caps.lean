import RepoPilot.Quota
import RepoPilot.Imports
import RepoPilot.Chat

/-! # The caps on repositories, conversations and runs

The requests that insert below a user, a repository or a conversation, as their statements in order. All of
them lock the parent before they count and keep the lock to the commit, so they are safe in the sense of
`Quota`, and the caps hold whatever else happens in between. -/

namespace RepoPilot
namespace Caps
open Quota

/-- A row that is locked or counted. -/
inductive Row
  | user (id : Uuid)
  | repository (id : Uuid)
  | conversation (id : Uuid)
  | run (id : Uuid)
  deriving DecidableEq

/-- Users are never removed. -/
def root : Row → Bool
  | .user _ => true
  | _ => false

def limit : Row → Nat
  | .user _ => 20
  | .repository _ => 100
  | .conversation _ => 1000
  | .run _ => 0

/-- `RepositoryService._quota`: the lock, and the imports of the last hour. -/
def quota (userId : Uuid) : List (Statement Row) := [.lock (.user userId), .other]

/-- `RepositoryService.create`: the limiter, the quota, the count, the address, the repository and its job. -/
def create (userId repositoryId : Uuid) : List (Statement Row) :=
  .other :: (quota userId ++
    [.count (.user userId), .other, .insert (.repository repositoryId) (.user userId), .other])

/-- `RepositoryService.retry`: the limiter, the quota, the repository, the superseded job and the new one. -/
def retry (userId repositoryId : Uuid) : List (Statement Row) :=
  .other :: (quota userId ++ [.find (.repository repositoryId), .other, .other])

/-- `ConversationService.create`: `owned`, the lock, the count, the limiter and the conversation. -/
def converse (repositoryId conversationId : Uuid) : List (Statement Row) :=
  [.find (.repository repositoryId), .lock (.repository repositoryId), .count (.repository repositoryId), .other,
    .insert (.conversation conversationId) (.repository repositoryId)]

/-- `RunService.submit`: `owned`, the lock, the key, the messages, the active run, the count, the source, its
state, the limiter, the history, the run and its event. -/
def submit (conversationId runId : Uuid) : List (Statement Row) :=
  [.find (.conversation conversationId), .lock (.conversation conversationId), .other, .other, .other,
    .count (.conversation conversationId), .other, .other, .other, .other,
    .insert (.run runId) (.conversation conversationId), .other]

inductive Request
  | create (userId repositoryId : Uuid)
  | retry (userId repositoryId : Uuid)
  | converse (repositoryId conversationId : Uuid)
  | submit (conversationId runId : Uuid)

def program : Request → List (Statement Row)
  | .create userId repositoryId => create userId repositoryId
  | .retry userId repositoryId => retry userId repositoryId
  | .converse repositoryId conversationId => converse repositoryId conversationId
  | .submit conversationId runId => submit conversationId runId

theorem program_safe (r : Request) : Safe root [] [] none (program r) := by
  cases r <;> simp [program, create, retry, converse, submit, quota, Safe, root]

/-- Requests of any users, statement by statement in any order, with rollbacks and removals at any time. -/
def machine : Machine (Quota.World Row) (Action Row Request) := Quota.machine root limit program

/-- A user has at most 20 repositories, a repository at most 100 conversations, a conversation at most 1000
runs. -/
def Capped (rows : List (Row × Row)) : Prop :=
  (∀ userId, below (.user userId) rows ≤ 20) ∧ (∀ repositoryId, below (.repository repositoryId) rows ≤ 100) ∧
    ∀ conversationId, below (.conversation conversationId) rows ≤ 1000

theorem caps_hold (acts : List (Action Row Request)) : Capped (machine.run acts).rows :=
  have h := below_le program_safe acts
  ⟨fun userId => h (.user userId), fun repositoryId => h (.repository repositoryId),
    fun conversationId => h (.conversation conversationId)⟩

/-! ### The statements and the transactions

What is counted and inserted above is what the transactions of the services count and insert. -/

/-- The rows of the tables. -/
def rowsOf (db : Db) (t : Tables) : List (Row × Row) :=
  db.repositories.map (fun r => (.repository r.id, .user r.userId)) ++
    (t.conversations.map (fun c => (.conversation c.id, .repository c.repositoryId)) ++
      t.runs.map fun r => (.run r.id, .conversation r.conversationId))

variable {db db' : Db} {t t' : Tables} {now : Time}

theorem below_user (userId : Uuid) :
    below (.user userId) (rowsOf db t) = (db.repositories.filter (·.userId = userId)).length := by
  simp [below, rowsOf, List.filter_map, Function.comp_def]

theorem below_repository (repositoryId : Uuid) :
    below (.repository repositoryId) (rowsOf db t) =
      (t.conversations.filter (·.repositoryId = repositoryId)).length := by
  simp [below, rowsOf, List.filter_map, Function.comp_def]

theorem below_conversation (conversationId : Uuid) :
    below (.conversation conversationId) (rowsOf db t) =
      (t.runs.filter (·.conversationId = conversationId)).length := by
  simp [below, rowsOf, List.filter_map, Function.comp_def]

/-- `create` counts below the user, and inserts one row there. -/
theorem create_rows {userId repositoryId jobId : Uuid} {source : Except AppError (Text × Text)}
    {limit : Option AppError} {r : Repository} {job : ImportJob}
    (h : Imports.create now userId source limit repositoryId jobId db = .ok (db', r, job)) :
    below (.user userId) (rowsOf db t) < 20 ∧
      (rowsOf db' t).Perm ((.repository repositoryId, .user userId) :: rowsOf db t) := by
  unfold Imports.create at h
  obtain ⟨_, -, h⟩ := bind_ok.1 h
  obtain ⟨_, -, h⟩ := bind_ok.1 h
  obtain ⟨_, hcount, h⟩ := bind_ok.1 h
  obtain ⟨_, -, h⟩ := bind_ok.1 h
  obtain ⟨_, -, h⟩ := bind_ok.1 h
  obtain ⟨_, -, h⟩ := bind_ok.1 h
  rw [below_user]
  refine ⟨Nat.lt_of_not_le (refuse_ok.1 hcount), ?_⟩
  dsimp only at h
  split at h
  · cases h
  · cases h
    unfold rowsOf
    rw [List.map_append, List.append_assoc]
    exact List.perm_middle

/-- `ConversationService.create` counts below the repository, and inserts one row there. -/
theorem converse_rows {userId repositoryId conversationId : Uuid} {title : Text} {limit : Option AppError}
    (h : Chat.create now userId repositoryId conversationId title limit db t = .ok t') :
    below (.repository repositoryId) (rowsOf db t) < 100 ∧
      (rowsOf db t').Perm ((.conversation conversationId, .repository repositoryId) :: rowsOf db t) := by
  unfold Chat.create at h
  obtain ⟨_, -, h⟩ := bind_ok.1 h
  obtain ⟨_, hcount, h⟩ := bind_ok.1 h
  obtain ⟨_, -, h⟩ := bind_ok.1 h
  rw [below_repository]
  refine ⟨Nat.lt_of_not_le (refuse_ok.1 hcount), ?_⟩
  cases h
  unfold rowsOf
  rw [List.map_append, List.append_assoc]
  exact (List.Perm.append_left _ List.perm_middle).trans List.perm_middle

/-- A submission goes past its count only below the limit. -/
theorem submit_counts {env : Env} {p : Runs.Submit} {repositoryId : Uuid} (hpc : p.pc = .total repositoryId)
    (h : (p.step env now .go db t).1 = .source repositoryId) :
    below (.conversation p.conversationId) (rowsOf db t) < 1000 := by
  rw [below_conversation]
  unfold Runs.Submit.step at h
  rw [hpc] at h
  dsimp only at h
  split at h
  · cases h
  · exact Nat.lt_of_not_le ‹_›

/-- An event of a run moves no row. -/
theorem rowsOf_appendState (runId : Uuid) : rowsOf db (t.appendState now runId) = rowsOf db t := by
  unfold Tables.appendState
  split
  · rfl
  · unfold rowsOf
    dsimp only
    split
    · rw [Table.map_update (f := Tables.clearPreview) _ fun _ _ _ => rfl]
    · rfl

/-- The insertion of a submission adds its run below the conversation. -/
theorem submit_rows {env : Env} {p : Runs.Submit} {source : RepositoryIndex} {history : List HistoryTurn}
    {runId : Uuid} {result : AnswerRun × Bool} (hpc : p.pc = .insert source history)
    (h : p.step env now (.insert runId) db t = (.done (.ok result), t')) :
    (rowsOf db t').Perm ((.run runId, .conversation p.conversationId) :: rowsOf db t) := by
  unfold Runs.Submit.step Runs.insertRun at h
  rw [hpc] at h
  dsimp only at h
  split at h
  · rename_i t'' hins
    split at hins
    · cases hins
    · cases hins
      cases h
      rw [rowsOf_appendState]
      unfold rowsOf
      dsimp only
      simp only [List.map_append, ← List.append_assoc]
      exact List.perm_append_singleton _ _
  · cases h

end Caps
end RepoPilot
