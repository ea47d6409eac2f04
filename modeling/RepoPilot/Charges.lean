import RepoPilot.ProviderOutput

/-! # What a response charges

A response of the model names its usage. `validate_response` checks the usage twice, once on its own and
once with the rest of the response, so that an answer that is refused still reports what it cost. The two
checks agree; `consume_stream` loses a checked usage only where it raises after the response was accepted. -/

namespace RepoPilot
namespace ProviderOutput
open Generation ProviderStream

variable {model : Text} {cap : Nat} {value : Json} {result : GenerationResult}

/-- The response is an object that names the model and counts its tokens consistently, within the cap. -/
def Reports (model : Text) (cap : Nat) (value : Json) (inputTokens outputTokens : Nat) : Prop :=
  ∃ kvs usage, value = .obj kvs ∧ member kvs "model" = some (.str model) ∧ member kvs "usage" = some (.obj usage) ∧
    member usage "input_tokens" = some (.num inputTokens) ∧ member usage "output_tokens" = some (.num outputTokens) ∧
    member usage "total_tokens" = some (.num (inputTokens + outputTokens : Nat)) ∧ outputTokens ≤ cap

/-- A result or a `ProviderUsageError`, with these counts. -/
def Charged (outcome : Except Failure GenerationResult) (inputTokens outputTokens : Nat) : Prop :=
  (∃ result, outcome = .ok result ∧ result.inputTokens = inputTokens ∧ result.outputTokens = outputTokens) ∨
    ∃ error, outcome = .error (.usage error inputTokens outputTokens)

/-- Not a `ProviderUsageError`. -/
def Failure.Plain : Failure → Prop
  | .usage _ _ _ => False
  | _ => True

/-! ### The two checks of the usage -/

theorem natField_eq_some {kvs : Dict} {key : String} {n : Nat} :
    natField kvs key = some n ↔ member kvs key = some (.num n) := by
  unfold natField
  split
  · rename_i m h
    rw [h]
    constructor
    · rintro ⟨⟩
      rfl
    · rintro ⟨⟩
      rfl
  · rename_i hno
    exact ⟨nofun, fun h => absurd h (hno n)⟩

theorem textField_eq_some {kvs : Dict} {key : String} {s : Text} :
    textField kvs key = some s ↔ member kvs key = some (.str s) := by
  unfold textField
  split
  · rename_i t h
    rw [h]
    constructor
    · rintro ⟨⟩
      rfl
    · rintro ⟨⟩
      rfl
  · rename_i hno
    exact ⟨nofun, fun h => absurd h (hno s)⟩

theorem usage_eq_some {u : Usage} :
    Usage.validate value = some u ↔ ∃ usage, value = .obj usage ∧ member usage "input_tokens" = some (.num u.inputTokens) ∧
      member usage "output_tokens" = some (.num u.outputTokens) ∧ member usage "total_tokens" = some (.num u.totalTokens) := by
  cases value with
  | obj usage =>
    simp only [Usage.validate, Option.bind_eq_bind, Option.bind_eq_some_iff, natField_eq_some, Option.some.injEq]
    constructor
    · rintro ⟨i, hi, o, ho, t, ht, rfl⟩
      exact ⟨usage, rfl, hi, ho, ht⟩
    · rintro ⟨usage', hu, hi, ho, ht⟩
      cases hu
      exact ⟨_, hi, _, ho, _, ht, rfl⟩
  | _ => simp [Usage.validate]

/-- What the tolerant check finds is what the response reports. -/
theorem knownUsage_eq_some {u : Usage} :
    knownUsage model cap value = some u ↔
      Reports model cap value u.inputTokens u.outputTokens ∧ u.totalTokens = u.inputTokens + u.outputTokens := by
  cases value with
  | obj kvs =>
    simp only [knownUsage]
    constructor
    · intro h
      split at h
      · rename_i hmodel
        obtain ⟨hu, hc⟩ := Option.filter_eq_some_iff.1 h
        obtain ⟨htotal, hcap⟩ := of_decide_eq_true hc
        obtain ⟨v, hv, hu⟩ := Option.bind_eq_some_iff.1 hu
        obtain ⟨usage, rfl, hi, ho, ht⟩ := usage_eq_some.1 hu
        exact ⟨⟨kvs, usage, rfl, textField_eq_some.1 hmodel, hv, hi, ho, htotal ▸ ht, hcap⟩, htotal⟩
      · cases h
    · rintro ⟨⟨kvs', usage, he, hmodel, hv, hi, ho, ht, hcap⟩, htotal⟩
      cases he
      rw [if_pos (textField_eq_some.2 hmodel), hv]
      refine Option.filter_eq_some_iff.2 ⟨?_, decide_eq_true ⟨htotal, hcap⟩⟩
      exact usage_eq_some.2 ⟨usage, rfl, hi, ho, htotal ▸ ht⟩
  | _ => simp [knownUsage, Reports]

/-! ### Every response -/

section Errors
variable {α β : Type}

/-- Every error of the computation is a plain one. -/
def RaisesPlain (x : Except Failure α) : Prop := ∀ e, x = .error e → e.Plain

theorem raisesPlain_ok (a : α) : RaisesPlain (.ok a) := nofun

theorem raisesPlain_value : RaisesPlain (.error .value : Except Failure α) := by
  rintro _ ⟨⟩
  exact trivial

theorem raisesPlain_orValue (o : Option α) : RaisesPlain (orValue o) := by
  cases o with
  | none => exact raisesPlain_value
  | some a => exact raisesPlain_ok a

theorem raisesPlain_ensure (p : Prop) [Decidable p] : RaisesPlain (ensure p) := by
  unfold ensure
  split
  · exact raisesPlain_ok ()
  · exact raisesPlain_value

theorem RaisesPlain.bind {x : Except Failure α} {f : α → Except Failure β} (hx : RaisesPlain x)
    (hf : ∀ a, RaisesPlain (f a)) : RaisesPlain (x >>= f) := by
  cases x with
  | error e =>
    rintro _ ⟨⟩
    exact hx e rfl
  | ok a => exact hf a

theorem raisesPlain_draftOf (part : Content) : RaisesPlain (draftOf part) := by
  unfold draftOf
  split
  · exact raisesPlain_ok none
  · cases readDraft (part.text.getD []) with
    | none => exact raisesPlain_value
    | some d => exact raisesPlain_ok (some d)

theorem validatePayload_raisesPlain (model : Text) (cap : Nat) (value : Json) :
    RaisesPlain (validatePayload model cap value) := by
  unfold validatePayload
  refine (raisesPlain_orValue _).bind fun payload => ?_
  split
  · rintro _ ⟨⟩
    exact trivial
  refine (raisesPlain_ensure _).bind fun _ => (raisesPlain_ensure _).bind fun _ => (raisesPlain_ensure _).bind fun _ => ?_
  split
  · refine (raisesPlain_ensure _).bind fun _ => ?_
    split
    · exact (raisesPlain_ensure _).bind fun _ => (raisesPlain_draftOf _).bind fun _ => raisesPlain_orValue _
    · exact raisesPlain_value
  · exact raisesPlain_value

end Errors

/-- The usage of a complete response is the usage it reports. -/
theorem Completed.reports {payload : ResponsePayload} {message : OutputItem} {part : Content}
    (h : Completed model cap value payload message part) :
    Reports model cap value payload.usage.inputTokens payload.usage.outputTokens := by
  have hparsed := h.parsed
  cases value with
  | obj kvs =>
    simp only [ResponsePayload.validate, Option.bind_eq_bind, Option.bind_eq_some_iff, Option.some.injEq] at hparsed
    obtain ⟨status, -, m, hm, output, -, usage, ⟨v, hv, hu⟩, rfl⟩ := hparsed
    obtain ⟨kvs', rfl, hi, ho, ht⟩ := usage_eq_some.1 hu
    have hnamed : m = model := h.named
    exact ⟨kvs, kvs', rfl, hnamed ▸ textField_eq_some.1 hm, hv, hi, ho, h.total ▸ ht, h.within⟩
  | _ => cases hparsed

/-- The counts a response reports are unique. -/
theorem Reports.unique {i o i' o' : Nat} (h : Reports model cap value i o) (h' : Reports model cap value i' o') :
    i = i' ∧ o = o' := by
  obtain ⟨kvs, usage, rfl, -, hu, hi, ho, -⟩ := h
  obtain ⟨kvs', usage', he, -, hu', hi', ho', -⟩ := h'
  cases he
  cases hu.symm.trans hu'
  cases hi.symm.trans hi'
  cases ho.symm.trans ho'
  exact ⟨rfl, rfl⟩

theorem validateResponse_eq_ok :
    validateResponse model cap value = .ok result ↔ validatePayload model cap value = .ok result := by
  refine ⟨validateResponse_ok, fun h => ?_⟩
  unfold validateResponse
  rw [h]

/-- A reported usage is returned or raised. -/
theorem Reports.charged {i o : Nat} (h : Reports model cap value i o) : Charged (validateResponse model cap value) i o := by
  cases hv : validatePayload model cap value with
  | ok result =>
    obtain ⟨payload, message, part, hc, -, hr⟩ := validatePayload_eq_ok.1 hv
    obtain ⟨hi, ho⟩ := hc.reports.unique h
    exact .inl ⟨result, validateResponse_eq_ok.2 hv, hr.inputTokens.trans hi, hr.outputTokens.trans ho⟩
  | error e =>
    have hknown : knownUsage model cap value = some ⟨i, o, i + o⟩ := knownUsage_eq_some.2 ⟨h, rfl⟩
    refine .inr ?_
    unfold validateResponse
    rw [hv, hknown]
    dsimp only
    split <;> exact ⟨_, rfl⟩

/-- Without a reported usage there is a plain error. -/
theorem validateResponse_unreported (h : ∀ i o, ¬ Reports model cap value i o) :
    ∃ e, validateResponse model cap value = .error e ∧ e.Plain := by
  cases hv : validatePayload model cap value with
  | ok result =>
    obtain ⟨payload, message, part, hc, -, -⟩ := validatePayload_eq_ok.1 hv
    exact absurd hc.reports (h _ _)
  | error e =>
    have hknown : knownUsage model cap value = none :=
      Option.eq_none_iff_forall_ne_some.2 fun u hu => h _ _ (knownUsage_eq_some.1 hu).1
    refine ⟨e, ?_, validatePayload_raisesPlain model cap value e hv⟩
    unfold validateResponse
    rw [hv, hknown]

/-- For every response: a usage it reports is returned or raised with it, without one the error is plain, and
what is returned was complete, with a draft unless it was refused. -/
theorem validateResponse_usage (model : Text) (cap : Nat) (value : Json) :
    (∀ i o, Reports model cap value i o → Charged (validateResponse model cap value) i o) ∧
      ((∀ i o, ¬ Reports model cap value i o) → ∃ e, validateResponse model cap value = .error e ∧ e.Plain) ∧
      ∀ result, validateResponse model cap value = .ok result →
        (∃ payload message part, Completed model cap value payload message part) ∧
          (result.draft.isSome ↔ result.refused = false) := by
  refine ⟨fun i o h => h.charged, validateResponse_unreported, fun result h => ?_⟩
  obtain ⟨payload, message, part, hc, -, -⟩ := validatePayload_eq_ok.1 (validateResponse_ok h)
  refine ⟨⟨payload, message, part, hc⟩, ?_⟩
  rw [← Bool.not_eq_true, result.refusal, Option.isSome_iff_ne_none]

/-! ### The end of a stream -/

namespace Progress

/-- The event at which the stream stops, and how far it had come. -/
def stop (model : Text) (cap : Nat) : Progress → List Dict → Option (Progress × Dict)
  | _, [] => none
  | p, event :: events =>
    match p.step model cap event with
    | .ok (.next p' _) => p'.stop model cap events
    | _ => some (p, event)

/-- What a step that stops comes to. -/
def verdict : Except Failure Step → Except Failure GenerationResult
  | .error e => .error e
  | .ok (.done result) => .ok result
  | .ok (.next _ _) => .error .value

theorem consume_of_stop {ε : Type} {ending : Ending ε} {events : List Dict} {p q : Progress} {event : Dict}
    (h : p.stop model cap events = some (q, event)) :
    (p.consume model cap ending events).2 = verdict (q.step model cap event) := by
  induction events generalizing p with
  | nil => cases h
  | cons e events ih =>
    simp only [stop] at h
    simp only [consume]
    cases hs : p.step model cap e with
    | error x =>
      rw [hs] at h
      cases h
      rw [hs]
      rfl
    | ok step =>
      rw [hs] at h
      cases step with
      | done result =>
        cases h
        rw [hs]
        rfl
      | next p' delta => exact ih h

end Progress

/-- The event may end the stream: it completes it in sequence, or says that it failed. -/
inductive Terminal (p : Progress) (event : Dict) : Prop
  | completed (sequence : Nat) (h : textField event "type" = some completedType)
    (hs : natField event "sequence_number" = some sequence) (hp : p.sequence < sequence)
  | failed (h : textField event "type" ∈ failing.map (some ·.toList))

/-- Before the first event. -/
def Progress.start : Progress := ⟨-1, none, [], 0⟩

/-- A usage that the event at the end reports is returned or raised. -/
def UsageKept {ε : Type} (model : Text) (cap : Nat) (stream : List Dict × Ending ε) : Prop :=
  ∀ p event i o, Progress.start.stop model cap stream.1 = some (p, event) → Terminal p event →
    Reports model cap (responseOf event) i o → Charged (consumeStream model cap stream).2 i o

/-- The response is complete and can be read. -/
def Valid (model : Text) (cap : Nat) (value : Json) : Prop :=
  ∃ payload message part, Completed model cap value payload message part ∧ part.Readable model

/-- The event is looked at, and it does not both say that the stream failed and carry a valid response. -/
def Consistent (model : Text) (cap : Nat) (p : Progress) (event : Dict) : Prop :=
  p.count < 12000 ∧ ¬ (textField event "type" ∈ failing.map (some ·.toList) ∧ Valid model cap (responseOf event))

theorem valid_iff : Valid model cap value ↔ ∃ result, validateResponse model cap value = .ok result := by
  constructor
  · rintro ⟨payload, message, part, hc, hr⟩
    have hnone := Content.draft_eq_none hr.1
    refine ⟨⟨payload.model, part.draft, part.type = "refusal".toList, payload.usage.inputTokens,
      payload.usage.outputTokens, hc.named ▸ hr.2, by rw [decide_eq_true_iff]; exact hnone⟩,
      validateResponse_eq_ok.2 (validatePayload_eq_ok.2 ⟨payload, message, part, hc, hr,
        rfl, decide_eq_true_iff, rfl, rfl, rfl⟩)⟩
  · rintro ⟨result, h⟩
    obtain ⟨payload, message, part, hc, hr, -⟩ := validatePayload_eq_ok.1 (validateResponse_ok h)
    exact ⟨payload, message, part, hc, hr⟩

section Step
variable {p : Progress} {event : Dict} {i o : Nat}

theorem not_charged_plain {e : Failure} (he : e.Plain) : ¬ Charged (.error e) i o := by
  rintro (⟨result, h, -⟩ | ⟨error, h⟩)
  · cases h
  · cases h
    exact he

theorem not_failing_completed (h : textField event "type" = some completedType) :
    textField event "type" ∉ failing.map (some ·.toList) := by
  rw [h]
  decide

theorem ok_bind {α β : Type} {a : α} {f : α → Except Failure β} : (Except.ok a >>= f) = f a := rfl

/-- A completed response that reports its usage is returned or refused with it. -/
theorem complete_charged {next : Progress} (h : Reports model cap (responseOf event) i o) :
    Charged (Progress.verdict (next.complete model cap event)) i o := by
  rcases h.charged with ⟨result, hok, rfl, rfl⟩ | ⟨error, herror⟩
  · obtain ⟨payload, _, _, hc, -, -⟩ := validatePayload_eq_ok.1 (validateResponse_ok hok)
    have hpayload : orValue (ResponsePayload.validate (responseOf event)) = .ok payload := orValue_ok.2 hc.parsed
    have hstep : next.complete model cap event =
        if result.refused = true ∨ ∃ i, next.identity = some i ∧ payload.namedText i = some next.accumulated then
          .ok (.done result)
        else .error (.usage modelInvalid result.inputTokens result.outputTokens) := by
      unfold Progress.complete
      rw [hok, hpayload]
      rfl
    rw [hstep]
    split
    · exact .inl ⟨result, rfl, rfl, rfl⟩
    · exact .inr ⟨modelInvalid, rfl⟩
  · have hstep : next.complete model cap event = .error (.usage error i o) := by
      unfold Progress.complete
      rw [herror]
      rfl
    rw [hstep]
    exact .inr ⟨error, rfl⟩

/-- A failed response that reports its usage is refused with it, unless it is valid. -/
theorem step_failing (hcount : p.count < 12000) (hf : textField event "type" ∈ failing.map (some ·.toList))
    (h : Reports model cap (responseOf event) i o) :
    p.step model cap event =
      (validateResponse model cap (responseOf event)).bind fun _ => .error (.app streamFailed) := by
  have hlimit : ¬ 12000 < p.count + 1 := by omega
  obtain ⟨kvs, _, hobj, -⟩ := h
  unfold Progress.step
  rw [if_neg hlimit, if_pos hf, hobj]
  dsimp only
  cases validateResponse model cap (.obj kvs) with
  | error e => rfl
  | ok result => rfl

theorem step_completed (hcount : p.count < 12000) {sequence : Nat} (ht : textField event "type" = some completedType)
    (hs : natField event "sequence_number" = some sequence) (hp : p.sequence < sequence) :
    p.step model cap event = Progress.complete model cap { p with sequence := sequence, count := p.count + 1 } event := by
  have hlimit : ¬ 12000 < p.count + 1 := by omega
  have hsequence : orValue (natField event "sequence_number") = .ok sequence := orValue_ok.2 hs
  have htype : orValue (textField event "type") = .ok completedType := orValue_ok.2 ht
  have hordered : ensure (p.sequence < sequence) = .ok () := ensure_ok.2 hp
  have hne : completedType ≠ deltaType := by decide
  unfold Progress.step
  rw [if_neg hlimit, if_neg (not_failing_completed ht), hsequence, htype]
  simp only [ok_bind, hordered]
  rw [if_neg hne, if_pos trivial]

/-- The event at the end keeps the usage exactly if it is looked at and consistent. -/
theorem step_charged_iff (ht : Terminal p event) (h : Reports model cap (responseOf event) i o) :
    Charged (Progress.verdict (p.step model cap event)) i o ↔ Consistent model cap p event := by
  by_cases hcount : p.count < 12000
  · cases ht with
    | completed sequence htype hs hp =>
      rw [step_completed hcount htype hs hp]
      exact iff_of_true (complete_charged h) ⟨hcount, fun hf => not_failing_completed htype hf.1⟩
    | failed hf =>
      rw [step_failing hcount hf h]
      by_cases hvalid : Valid model cap (responseOf event)
      · obtain ⟨result, hok⟩ := valid_iff.1 hvalid
        rw [hok]
        refine iff_of_false ?_ fun hc => hc.2 ⟨hf, hvalid⟩
        exact not_charged_plain (e := .app streamFailed) trivial
      · rcases h.charged with ⟨result, hok, -⟩ | ⟨error, herror⟩
        · exact absurd (valid_iff.2 ⟨result, hok⟩) hvalid
        · rw [herror]
          exact iff_of_true (.inr ⟨error, rfl⟩) ⟨hcount, fun hc => hvalid hc.2⟩
  · have hlimit : 12000 < p.count + 1 := by omega
    have hstep : p.step model cap event = .error .value := by
      unfold Progress.step
      rw [if_pos hlimit]
    rw [hstep]
    refine iff_of_false ?_ fun hc => hcount hc.1
    exact not_charged_plain (e := .value) trivial

end Step

/-- A stream keeps the usage reported at its end exactly if the event there is among the first 12000 and does not
say that a valid response failed. -/
theorem usageKept_iff {ε : Type} (model : Text) (cap : Nat) (stream : List Dict × Ending ε) :
    UsageKept model cap stream ↔
      ∀ p event i o, Progress.start.stop model cap stream.1 = some (p, event) → Terminal p event →
        Reports model cap (responseOf event) i o → Consistent model cap p event := by
  unfold UsageKept
  refine forall_congr' fun p => forall_congr' fun event => forall_congr' fun i => forall_congr' fun o =>
    forall_congr' fun hstop => forall_congr' fun ht => forall_congr' fun h => ?_
  have hverdict : (consumeStream model cap stream).2 = Progress.verdict (p.step model cap event) :=
    Progress.consume_of_stop hstop
  rw [hverdict]
  exact step_charged_iff ht h

/-- The stream fails with a response that is complete and valid. -/
def failedStream : List Dict :=
  [[("type".toList, .str "response.failed".toList), ("response".toList, response draftText)]]

theorem not_usageKept_failed :
    ¬ ∀ (model : Text) (cap : Nat) (stream : List Dict × Ending Unit), UsageKept model cap stream := by
  intro h
  have hreports : Reports "m".toList 10 (response draftText) 1 1 :=
    ⟨_, _, rfl, rfl, rfl, rfl, rfl, rfl, by decide⟩
  have hcharged := h "m".toList 10 (failedStream, .incomplete) .start _ 1 1 rfl (.failed (by decide)) hreports
  have houtcome : (consumeStream "m".toList 10 (failedStream, (.incomplete : Ending Unit))).2 = .error (.app streamFailed) := rfl
  rw [houtcome] at hcharged
  exact not_charged_plain (e := .app streamFailed) trivial hcharged

end ProviderOutput
end RepoPilot
