import RepoPilot.ChatGuarantees
import RepoPilot.Timeline
import RepoPilot.Services

/-! # The form for background answers

`RunComposer` in the browser, with its requests under way and the whole system behind them. A request is sent, served
and answered in steps of their own; it can be turned away, be given up while it is still under way, or be served after
that. Polls end in any order. -/

namespace RepoPilot
namespace RunComposer
open Runs

/-! ### The component -/

/-- White space and line ends for `String.prototype.trim`. -/
def IsBlank (c : Char) : Prop :=
  9 ≤ c.toNat ∧ c.toNat ≤ 13 ∨ 8192 ≤ c.toNat ∧ c.toNat ≤ 8202 ∨
    c.toNat ∈ [32, 160, 5760, 8232, 8233, 8239, 8287, 12288, 65279]

instance : DecidablePred IsBlank := fun c =>
  inferInstanceAs (Decidable (9 ≤ c.toNat ∧ c.toNat ≤ 13 ∨ 8192 ≤ c.toNat ∧ c.toNat ≤ 8202 ∨
    c.toNat ∈ [32, 160, 5760, 8232, 8233, 8239, 8287, 12288, 65279]))

def trim (s : Text) : Text := ((s.dropWhile (IsBlank ·)).reverse.dropWhile (IsBlank ·)).reverse

structure Submission where
  question : Text
  mode : Mode
  requestKey : Uuid
  deriving DecidableEq

structure AnswerSettings where
  enabled : Bool
  embeddingsEnabled : Bool
  model : Text
  deriving DecidableEq

/-- How a request ends in the browser: with its value, with an `ApiError`, or with no response that can be read. -/
inductive Reply (α : Type)
  | ok (value : α)
  | apiError (status : Nat) (message : String)
  | failed
  deriving DecidableEq

structure Form where
  settings : Option AnswerSettings
  runs : List RunResponse
  loading : Bool
  statusError : Option String
  error : Option String
  question : Text
  mode : Mode
  pending : Option Submission
  busy : Bool
  completed : List Uuid

namespace Form

def mounted : Form := ⟨none, [], true, none, none, [], .keyword, none, false, []⟩

/-- Some run is queued or running, as far as the form knows. -/
def Active (f : Form) : Prop := ∃ run ∈ f.runs, run.status.Active

instance (f : Form) : Decidable f.Active := inferInstanceAs (Decidable (∃ run ∈ f.runs, run.status.Active))

/-- The fields are not disabled. -/
def Editable (f : Form) : Prop := f.busy = false ∧ f.pending = none ∧ ¬ f.Active

instance (f : Form) : Decidable f.Editable := inferInstanceAs (Decidable (_ ∧ _ ∧ _))

/-- The button is not disabled. -/
def CanSubmit (f : Form) : Prop :=
  f.busy = false ∧ f.loading = false ∧ f.statusError = none ∧ (∃ s ∈ f.settings, s.enabled = true) ∧ ¬ f.Active ∧
    (f.pending ≠ none ∨ trim f.question ≠ [])

instance (f : Form) : Decidable f.CanSubmit := inferInstanceAs (Decidable (_ ∧ _ ∧ _ ∧ _ ∧ _ ∧ _))

/-- What is posted: the pending submission, or a new one under the key `key`. -/
def data (f : Form) (key : Uuid) : Submission := f.pending.getD ⟨trim f.question, f.mode, key⟩

/-- `submit`, up to the request. -/
def submit (f : Form) (key : Uuid) : Form := { f with pending := some (f.data key), busy := true, error := none }

/-- The statuses after which a submission is not retried. -/
def refusals : List Nat := [400, 401, 403, 404, 409, 422, 429]

def uncertain : String :=
  "Submission status is uncertain. Retry the same submission below; its key prevents creating a second run."

/-- `submit`, from the response on. -/
def submitted (f : Form) : Reply RunResponse → Form
  | .ok result => { f with
      runs := (result :: f.runs.filter (·.id ≠ result.id)).take 20
      pending := none
      question := []
      busy := false }
  | .apiError status message => { f with
      pending := if status ∈ refusals then none else f.pending
      error := some message
      busy := false }
  | .failed => { f with error := some uncertain, busy := false }

/-- `cancel`, up to the request. -/
def cancel (f : Form) : Form := { f with busy := true, error := none }

/-- `cancel`, from the response on. -/
def cancelled (f : Form) (runId : Uuid) : Reply RunResponse → Form
  | .ok result => { f with runs := f.runs.map fun item => if item.id = runId then result else item, busy := false }
  | .apiError status message => { f with error := if status = 401 then f.error else some message, busy := false }
  | .failed => { f with error := some "Unable to cancel. Refresh status before retrying.", busy := false }

/-- The runs of a listing that are completed now and were not known to be, in order. -/
def news (completed : List Uuid) : List RunResponse → List Uuid
  | [] => []
  | run :: next =>
    if run.status = .completed ∧ run.id ∉ completed then run.id :: news (completed ++ [run.id]) next
    else news completed next

/-- `poll`, when both responses are there. -/
def listed (f : Form) (next : List RunResponse) (configuration : AnswerSettings) : Form :=
  { f with
    settings := some configuration
    runs := next
    statusError := none
    loading := false
    pending := f.pending.filter fun previous => ¬ ∃ run ∈ next, run.requestKey = previous.requestKey
    completed := f.completed ++ news f.completed next }

/-- `poll`, when a response failed with `status`, or could not be read. -/
def unlisted (f : Form) (status : Option Nat) : Form :=
  { f with
    loading := false
    statusError := if status = some 401 then f.statusError
      else some "Unable to read run status. Your run may still be working. Retrying…" }

end Form

/-! ### The requests under way -/

/-- A POST on its way, turned away before the service, or served by a submission of the system. -/
inductive Carried
  | flying
  | refused (status : Nat) (message : String)
  | served (submit : Nat)
  deriving DecidableEq

/-- A POST of the form, with the reply the form has taken. -/
structure Post where
  data : Submission
  carried : Carried
  reply : Option (Reply RunResponse)

/-- The two requests of a poll, with what was read for each. -/
structure Poll where
  listed : Option (List RunResponse)
  configured : Option AnswerSettings

/-- The properties of the component, and the user who is signed in. -/
structure Client where
  userId : Uuid
  repositoryId : Uuid
  conversationId : Uuid

structure State where
  system : System
  form : Form
  posts : List Post
  /-- The POST the form waits for. -/
  posting : Option Nat
  /-- The run being cancelled, and the response on its way. -/
  cancelling : Option (Uuid × Option (Reply RunResponse))
  polls : List Poll
  /-- The run of each call of `onCompleted`. -/
  notified : List Uuid
  expired : Bool

def message : Raised → String
  | .app e => e.message
  | _ => "An unexpected error occurred."

def respond : Except Raised RunResponse → Reply RunResponse
  | .ok run => .ok run
  | .error e => .apiError (Timeline.httpStatus e) (message e)

/-- `AnswerService.configuration`. -/
def configuration (settings : Settings) (db : Db) (userId repositoryId : Uuid) : Except AppError AnswerSettings := do
  let _ ← db.owned userId repositoryId
  .ok ⟨settings.answersEnabled, settings.embeddingsEnabled, settings.answerModel⟩

namespace State

/-- The response to a POST, once there is one. -/
def response (s : State) (p : Post) : Option (Reply RunResponse) :=
  match p.carried with
  | .flying => none
  | .refused status message => some (.apiError status message)
  | .served i =>
    match s.system.chat.submits[i]? with
    | none => none
    | some q =>
      match q.pc with
      | .done result => some (respond (result.map fun r => RunResponse.validate r.1))
      | _ => none

def keys (s : State) : List Uuid := s.posts.map (·.data.requestKey)

/-- Nobody has used the key. -/
def Unused (s : State) (key : Uuid) : Prop :=
  key ∉ s.keys ∧ ∀ p ∈ s.system.chat.submits, p.request.requestKey ≠ key

instance (s : State) (key : Uuid) : Decidable (s.Unused key) :=
  inferInstanceAs (Decidable (key ∉ s.keys ∧ ∀ p ∈ s.system.chat.submits, p.request.requestKey ≠ key))

/-- The action is not a submission under a key of the form. -/
def Foreign (s : State) : System.Action → Prop
  | .chat (.submit _ _ _ requestKey _ _) => requestKey ∉ s.keys
  | _ => True

instance (s : State) (a : System.Action) : Decidable (s.Foreign a) := by
  unfold Foreign
  split <;> infer_instance

end State

inductive Action
  | system (action : System.Action)
  | type (question : Text)
  | choose (mode : Mode)
  | submit (key : Uuid)
  | turnAway (post status : Nat) (message : String)
  | serve (post : Nat) (settings : Settings)
  | answer
  | lose
  | cancel (runId : Uuid)
  | refuseCancel (status : Nat) (message : String)
  | serveCancel
  | poll
  | list (poll : Nat)
  | configure (poll : Nat) (settings : Settings)
  | settle (poll : Nat)
  | fail (poll : Nat) (status : Option Nat)

variable (env : Env) (c : Client)

/-- A POST reaches the service. -/
def serve (s : State) (i : Nat) (p : Post) (settings : Settings) : State :=
  match AnswerRequest.validate env p.data.question p.data.mode with
  | none => { s with
      posts := s.posts.set i { p with carried := .refused 422 "Check the submitted fields and try again." } }
  | some _ => { s with
      system := System.step env s.system
        (.chat (.submit settings c.userId c.conversationId p.data.requestKey p.data.question p.data.mode))
      posts := s.posts.set i { p with carried := .served s.system.chat.submits.length } }

/-- The form takes the reply to the POST it waits for. -/
def take (s : State) (i : Nat) (p : Post) (reply : Reply RunResponse) : State :=
  { s with
    form := s.form.submitted reply
    posts := s.posts.set i { p with reply := some reply }
    posting := none
    expired := s.expired || reply matches .apiError 401 _ }

/-- The form takes the reply to its cancellation. -/
def takeCancel (s : State) (runId : Uuid) (reply : Reply RunResponse) : State :=
  { s with
    form := s.form.cancelled runId reply
    cancelling := none
    expired := s.expired || reply matches .apiError 401 _ }

/-- `RunService.cancel` with its response. -/
def serveCancel (s : State) (runId : Uuid) : State :=
  let system := System.step env s.system (.chat (.cancel c.userId runId))
  let reply :=
    match Runs.cancel s.system.world.clock c.userId runId s.system.jobs.db s.system.chat.tables with
    | .error e => .error (.app e)
    | .ok t => lift (RunService.get s.system.jobs.db t c.userId runId)
  { s with system := system, cancelling := some (runId, some (respond reply)) }

/-- A step of the system, of the network or of the browser; what cannot happen changes nothing. -/
def step (s : State) : Action → State
  | .system a => if s.Foreign a then { s with system := System.step env s.system a } else s
  | .type question =>
    if s.expired = false ∧ s.form.Editable then { s with form := { s.form with question := question } } else s
  | .choose mode =>
    if s.expired = false ∧ s.form.Editable ∧ (mode = .hybrid → ∃ x ∈ s.form.settings, x.embeddingsEnabled = true) then
      { s with form := { s.form with mode := mode } }
    else s
  | .submit key =>
    if s.expired = false ∧ s.form.CanSubmit ∧ (s.form.pending = none → s.Unused key) then
      { s with
        form := s.form.submit key
        posts := s.posts ++ [⟨s.form.data key, .flying, none⟩]
        posting := some s.posts.length }
    else s
  | .turnAway i status message =>
    match s.posts[i]? with
    | none => s
    | some p =>
      if p.carried = .flying then { s with posts := s.posts.set i { p with carried := .refused status message } } else s
  | .serve i settings =>
    match s.posts[i]? with
    | none => s
    | some p => if p.carried = .flying then serve env c s i p settings else s
  | .answer =>
    match s.posting, s.cancelling with
    | some i, _ =>
      match s.posts[i]? with
      | none => s
      | some p =>
        match s.response p with
        | none => s
        | some reply => take s i p reply
    | none, some (runId, some reply) => takeCancel s runId reply
    | none, _ => s
  | .lose =>
    match s.posting, s.cancelling with
    | some i, _ =>
      match s.posts[i]? with
      | none => s
      | some p => take s i p .failed
    | none, some (runId, _) => takeCancel s runId .failed
    | none, none => s
  | .cancel runId =>
    if s.expired = false ∧ s.form.busy = false ∧ ∃ run ∈ s.form.runs, run.id = runId ∧ run.status.Active then
      { s with form := s.form.cancel, cancelling := some (runId, none) }
    else s
  | .refuseCancel status message =>
    match s.cancelling with
    | some (runId, none) => { s with cancelling := some (runId, some (.apiError status message)) }
    | _ => s
  | .serveCancel =>
    match s.cancelling with
    | some (runId, none) => serveCancel env c s runId
    | _ => s
  | .poll => { s with polls := s.polls ++ [⟨none, none⟩] }
  | .list i =>
    match s.polls[i]? with
    | none => s
    | some q =>
      match RunService.list s.system.jobs.db s.system.chat.tables c.userId c.conversationId with
      | .error _ => s
      | .ok rows => { s with polls := s.polls.set i { q with listed := some rows } }
  | .configure i settings =>
    match s.polls[i]? with
    | none => s
    | some q =>
      match configuration settings s.system.jobs.db c.userId c.repositoryId with
      | .error _ => s
      | .ok x => { s with polls := s.polls.set i { q with configured := some x } }
  | .settle i =>
    match s.polls[i]? with
    | some ⟨some rows, some x⟩ =>
      if s.expired = false then
        { s with
          form := s.form.listed rows x
          polls := s.polls.eraseIdx i
          notified := s.notified ++ Form.news s.form.completed rows }
      else s
    | _ => s
  | .fail i status =>
    if s.expired = false ∧ i < s.polls.length then
      { s with
        form := s.form.unlisted status
        polls := s.polls.eraseIdx i
        expired := s.expired || status matches some 401 }
    else s

/-- The form from its mounting on, in a system in any state it can reach. -/
def machine (acts : List System.Action) : Machine State Action :=
  ⟨⟨System.run env acts, .mounted, [], none, none, [], [], false⟩, step env c⟩

end RunComposer
end RepoPilot
