import RepoPilot.Transcripts

/-! # Submissions

One run for each request key of a conversation, at most one active run, and every successful submission
of a key returns that run. -/

namespace RepoPilot
open Generation

namespace Runs
variable {env : Env} {now : Time} {p : Submit} {input : SubmitInput} {db : Db} {t t' : Tables} {pc' : SubmitPc}

/-- The submission has inserted the run `runId` under its key. -/
def Submit.Created (p : Submit) (conversationId requestKey runId : Uuid) : Prop :=
  p.conversationId = conversationId ∧ p.request.requestKey = requestKey ∧
    ∃ run, p.pc = .done (.ok (run, true)) ∧ run.id = runId

theorem byKey_eq {conversationId requestKey : Uuid} {run : AnswerRun}
    (h : byKey t conversationId requestKey = some run) :
    run ∈ t.runs ∧ run.conversationId = conversationId ∧ run.requestKey = requestKey := by
  unfold byKey at h
  exact ⟨List.mem_of_find?_eq_some h, by simpa using List.find?_some h⟩

/-- A submission that is done stays so. -/
theorem Submit.Effect.done (h : Submit.Effect env now p input db t pc' t') {result : Except Raised (AnswerRun × Bool)}
    (hpc : p.pc = .done result) : pc' = p.pc := by
  cases h with
  | idle => rfl
  | aborted hno => exact absurd hpc (hno result)
  | refused hin =>
    rcases hin with hin | hin
    · rw [hpc] at hin
      exact absurd hin id
    · rw [hpc] at hin
      cases hin
  | advanced hin =>
    rw [hpc] at hin
    exact absurd hin id
  | replayed hin =>
    rcases hin with ⟨_, hin⟩ | hin
    · rw [hpc] at hin
      cases hin
    · rw [hpc] at hin
      cases hin
  | notOwned hin | owned hin | locked hin | missed hin | inserted hin | lost hin =>
    rw [hpc] at hin
    cases hin

/-- A submission that succeeds has inserted its run, or has found it under its key. -/
theorem Submit.Effect.succeeded (h : Submit.Effect env now p input db t pc' t') {run : AnswerRun} {created : Bool}
    (hpc : pc' = .done (.ok (run, created))) :
    p.pc = pc' ∨ (created = false ∧ run ∈ t.runs ∧ run.conversationId = p.conversationId ∧
      run.requestKey = p.request.requestKey) ∨
    (created = true ∧ ∃ source history runId, p.pc = .insert source history ∧ input = .insert runId ∧
      run = newRun env now p runId source history ∧ insertRun now run t = some t') := by
  cases h with
  | idle => exact .inl rfl
  | replayed hin h =>
    unfold replay at hpc
    split at hpc
    · cases hpc
    · cases hpc
      obtain ⟨hm, hc, hk⟩ := byKey_eq h
      exact .inr (.inl ⟨rfl, hm, hc, hk⟩)
  | inserted hin hinput h =>
    cases hpc
    exact .inr (.inr ⟨rfl, _, _, _, hin, hinput, rfl, h⟩)
  | missed hin h hpc' =>
    rcases hpc' with rfl | ⟨e, rfl⟩ <;> cases hpc
  | advanced hin hpc' =>
    rw [hpc] at hpc'
    exact absurd hpc' id
  | aborted | refused | notOwned | owned | locked | lost => cases hpc

end Runs

namespace Chat
variable {env : Env} {now : Time} {ids : List Uuid} {db : Db} {w w' : World} {s : Chat} {t' : Tables}
  {as' : List Ask} {sb' : List Runs.Submit} {ws' : List Runs.Worker} {log' : List Entry} {r r' : AnswerRun}

structure SubmitInv (env : Env) (w : World) (s : Chat) : Prop where
  keys : ∀ r ∈ s.tables.runs, ∀ r' ∈ s.tables.runs, r.conversationId = r'.conversationId →
    r.requestKey = r'.requestKey → r = r'
  active : ∀ r ∈ s.tables.runs, ∀ r' ∈ s.tables.runs, r.conversationId = r'.conversationId →
    r.status.Active → r'.status.Active → r = r'
  hashes : ∀ r ∈ s.tables.runs, r.requestHash = env.sha256 (Runs.fingerprintPayload r.question r.mode)
  creators : ∀ r ∈ s.tables.runs, ∃ p ∈ s.submits, p.Created r.conversationId r.requestKey r.id
  results : ∀ p ∈ s.submits, ∀ run created, p.pc = .done (.ok (run, created)) →
    ∃ q ∈ s.submits, q.Created p.conversationId p.request.requestKey run.id
  once : ∀ (i j : Nat) (p q : Runs.Submit) (conversationId requestKey runId runId' : Uuid),
    s.submits[i]? = some p → s.submits[j]? = some q → p.Created conversationId requestKey runId →
      q.Created conversationId requestKey runId' → i = j
  alive : ∀ p ∈ s.submits, ∀ run created, p.pc = .done (.ok (run, created)) → p.conversationId ∈ w.issued ∧
    ((∃ r ∈ s.tables.runs, r.conversationId = p.conversationId ∧ r.requestKey = p.request.requestKey) ∨
      ∀ c ∈ s.tables.conversations, c.id ≠ p.conversationId)

/-! ### Runs -/

/-- A run stays, unless its conversation is deleted. -/
theorem Written.stays (h : Written now ids db s t' as') (hi : ConversationInv w s) (hr : r ∈ s.tables.runs) :
    (∃ r' ∈ t'.runs, r'.id = r.id) ∨ ∀ c ∈ t'.conversations, c.id ≠ r.conversationId := by
  cases h with
  | kept runs | asked _ _ _ _ _ runs => exact .inl ⟨r, runs ▸ hr, rfl⟩
  | created _ _ _ h =>
    rw [h]
    exact .inl ⟨r, hr, rfl⟩
  | rewritten runs hid =>
    rw [runs]
    refine .inl ⟨_, Table.mem_update_of_mem hr, ?_⟩
    split
    · exact hid r
    · rfl
  | moved hid h =>
    rw [h.runs]
    refine .inl ⟨_, Table.mem_update_of_mem hr, ?_⟩
    split
    · exact (Tables.settled_id _).trans (hid r hr ‹_›)
    · rfl
  | removed p h =>
    by_cases hgone : r.conversationId ∈ (s.tables.conversations.filter p).map (·.id)
    · right
      rw [h]
      intro c hc he
      obtain ⟨hc, hno⟩ := List.mem_filter.1 hc
      obtain ⟨q, hq, hid⟩ := List.mem_map.1 hgone
      obtain ⟨hq, hp⟩ := List.mem_filter.1 hq
      rw [hi.keyed.eq hq hc (hid.trans he.symm)] at hp
      exact of_decide_eq_true hno hp
    · left
      rw [h]
      exact ⟨r, List.mem_filter.2 ⟨hr, decide_eq_true hgone⟩, rfl⟩
  | inserted hid hr' h =>
    rw [h]
    exact .inl ⟨r, List.mem_append_left _ hr, rfl⟩
  | published hk hpc hrun hheld hc hroom h =>
    rw [h.runs]
    refine .inl ⟨_, Table.mem_update_of_mem hr, ?_⟩
    split
    · exact Tables.settled_id _
    · rfl

/-- A run that stays keeps the columns of its submission. -/
theorem runs_stay (hi : RunInv w s) (hc : ConversationInv w s) (hf : ∀ i ∈ ids, i ∉ w.issued)
    (he : Effect env now ids db s t' as' sb' ws' log') (hr : r ∈ s.tables.runs) :
    (∃ r' ∈ t'.runs, Runs.Same r r') ∨ ∀ c ∈ t'.conversations, c.id ≠ r.conversationId := by
  rcases (written hi hf he).stays hc hr with ⟨r', hr', hid⟩ | hgone
  · left
    rcases changes hi hf he hr' with ⟨q, hq, hs, -⟩ | hn
    · have hqr : q = r := hi.keyed.eq hq hr (hs.id.symm.trans hid)
      exact ⟨r', hr', hqr ▸ hs⟩
    · exact absurd (hid ▸ hi.ids r hr) (hf _ hn.id)
  · exact .inr hgone

/-- A run that was active before, if it is active now. -/
theorem Change.active (h : Change now s t' ws' r r') (ha : r'.status.Active) : r.status.Active := by
  cases h with
  | quiet status => rwa [status] at ha
  | claimed was => exact .inl was
  | stopped was => exact was
  | completed was => exact .inr was

/-- The runs after an action: the old ones, and at most one new one that no constraint rejected. -/
theorem runs_effect (hi : RunInv w s) (hf : ∀ i ∈ ids, i ∉ w.issued)
    (he : Effect env now ids db s t' as' sb' ws' log') (hr' : r' ∈ t'.runs) :
    (∃ r ∈ s.tables.runs, Runs.Same r r' ∧ (r'.status.Active → r.status.Active)) ∨
      (r'.id ∈ ids ∧ ¬ Runs.Rejects s.tables r' ∧ t'.runs = s.tables.runs ++ [r'] ∧
        ∃ (i : Nat) (p : Runs.Submit) (runId : Uuid) (source : RepositoryIndex) (history : List HistoryTurn),
          s.submits[i]? = some p ∧ p.pc = .insert source history ∧ r' = Runs.newRun env now p runId source history ∧
            sb' = s.submits.set i { p with pc := .done (.ok (r', true)) }) := by
  rcases changes hi hf he hr' with ⟨r, hr, hs, hc⟩ | hn
  · exact .inl ⟨r, hr, hs, hc.active⟩
  right
  have hold : ∀ r ∈ s.tables.runs, r.id ≠ r'.id := fun r hr heq => hf _ hn.id (heq ▸ hi.ids r hr)
  have hno : ∀ r ∈ s.tables.runs, ¬ Runs.Same r r' := fun r hr hs => hold r hr hs.id.symm
  cases he with
  | @submitted i p input pc' _ hp hids hfree he =>
    cases he with
    | @inserted source history runId _ hpc hin h =>
      have hid := hids _ hin
      have hne : ∀ r ∈ s.tables.runs, r.id ≠ runId := fun r hr heq => hf _ hid (heq ▸ hi.ids r hr)
      obtain ⟨hrej, rfl⟩ := Runs.insertRun_eq hi.keyed hne (.inl rfl) h
      rcases List.mem_append.1 hr' with hr' | hr'
      · exact absurd ⟨rfl, rfl, rfl, rfl, rfl, rfl, rfl⟩ (hno r' hr')
      · rw [List.mem_singleton] at hr'
        subst hr'
        exact ⟨hid, hrej, rfl, i, p, runId, source, history, hp, hpc, rfl, rfl⟩
    | _ => exact absurd ⟨rfl, rfl, rfl, rfl, rfl, rfl, rfl⟩ (hno r' hr')
  | claimed hid hpc hr =>
    obtain ⟨r, hrm, hs, -⟩ := changes_claimed hi hr hr'
    exact absurd hs (hno r hrm)
  | worked hk hin h =>
    obtain ⟨r, hrm, hs, -⟩ := changes_worked hi hk h hr'
    exact absurd hs (hno r hrm)
  | stopped hm =>
    obtain ⟨r, hrm, hs, -⟩ := changes_stopped hi hm (fun id => Iff.refl (Claimed s.workers id)) hr'
    exact absurd hs (hno r hrm)
  | stamped =>
    obtain ⟨r, hrm, rfl⟩ := Table.mem_update.1 hr'
    refine absurd ?_ (hold r hrm)
    split <;> rfl
  | same | asking | submitting | created => exact absurd rfl (hold r' hr')
  | removed p => exact absurd rfl (hold r' (List.mem_of_mem_filter hr'))
  | asked hp h =>
    cases h with
    | idle | ended | began => exact absurd rfl (hold r' hr')
    | answering hpc h =>
      obtain ⟨-, rfl⟩ := h.of_none rfl ((hi.asks _ (Table.mem_of_getElem? hp)).receipt hpc).1
      exact absurd rfl (hold r' hr')
    | appended hpc h =>
      obtain ⟨c, -, -, rfl⟩ := Tables.appendPair_eq h
      exact absurd rfl (hold r' hr')

/-! ### Submissions -/

/-- A submission keeps its place and its request; if it is done it stays so. -/
theorem submits_kept (he : Effect env now ids db s t' as' sb' ws' log') {i : Nat} {p : Runs.Submit}
    (hp : s.submits[i]? = some p) :
    ∃ pc', sb'[i]? = some { p with pc := pc' } ∧ ∀ result, p.pc = .done result → pc' = .done result := by
  cases he with
  | submitting hpc =>
    obtain ⟨hlt, -⟩ := List.getElem?_eq_some_iff.1 hp
    exact ⟨p.pc, by rw [List.getElem?_append_left hlt]; exact hp, fun _ h => h⟩
  | @submitted j q input pc' _ hq hids hfree he =>
    by_cases hij : j = i
    · subst hij
      obtain ⟨hlt, -⟩ := List.getElem?_eq_some_iff.1 hp
      cases hp.symm.trans hq
      exact ⟨pc', List.getElem?_set_self hlt, fun _ h => (he.done h).trans h⟩
    · exact ⟨p.pc, by rw [List.getElem?_set_ne hij]; exact hp, fun _ h => h⟩
  | _ => exact ⟨p.pc, hp, fun _ h => h⟩

/-- A submission is new, or an old one that may have taken the step of this action. -/
theorem submits_effect (he : Effect env now ids db s t' as' sb' ws' log') {i : Nat} {p' : Runs.Submit}
    (hp' : sb'[i]? = some p') :
    p'.pc = .owned ∨ s.submits[i]? = some p' ∨
      ∃ p input pc', s.submits[i]? = some p ∧ p' = { p with pc := pc' } ∧ sb' = s.submits.set i p' ∧
        (∀ id, input = .insert id → id ∈ ids) ∧ Runs.Submit.Effect env now p input db s.tables pc' t' := by
  cases he with
  | submitting hpc =>
    by_cases hlt : i < s.submits.length
    · rw [List.getElem?_append_left hlt] at hp'
      exact .inr (.inl hp')
    · have hmem := List.mem_of_getElem? (by rw [List.getElem?_append_right (Nat.le_of_not_lt hlt)] at hp'; exact hp')
      rw [List.mem_singleton.1 hmem]
      exact .inl hpc
  | @submitted j q input pc' _ hq hids hfree he =>
    by_cases hij : j = i
    · subst hij
      obtain ⟨hlt, -⟩ := List.getElem?_eq_some_iff.1 hq
      rw [List.getElem?_set_self hlt] at hp'
      cases hp'
      exact .inr (.inr ⟨q, input, pc', hq, rfl, rfl, hids, he⟩)
    · rw [List.getElem?_set_ne hij] at hp'
      exact .inr (.inl hp')
  | _ => exact .inr (.inl hp')

/-- A submission that reports a run has reported it before, has found it, or has just inserted it. -/
theorem succeeded_effect (hi : RunInv w s) (hf : ∀ i ∈ ids, i ∉ w.issued)
    (he : Effect env now ids db s t' as' sb' ws' log') {i : Nat} {p' : Runs.Submit} (hp' : sb'[i]? = some p')
    {run : AnswerRun} {created : Bool} (hdone : p'.pc = .done (.ok (run, created))) :
    s.submits[i]? = some p' ∨
      (created = false ∧ run ∈ s.tables.runs ∧ run.conversationId = p'.conversationId ∧
        run.requestKey = p'.request.requestKey) ∨
      (created = true ∧ run ∈ t'.runs ∧ run.conversationId = p'.conversationId ∧
        run.requestKey = p'.request.requestKey ∧ ¬ Runs.Rejects s.tables run ∧ sb' = s.submits.set i p' ∧
        ∃ p, s.submits[i]? = some p ∧ ∀ result, p.pc ≠ .done result) := by
  rcases submits_effect he hp' with howned | hold | ⟨p, input, pc', hp, rfl, hset, hids, heff⟩
  · rw [howned] at hdone
    cases hdone
  · exact .inl hold
  · rcases heff.succeeded hdone with hsame | hfound | ⟨hc, source, history, runId, hpc, hin, rfl, hins⟩
    · left
      rw [hp]
      have : ({ p with pc := pc' } : Runs.Submit) = p := by rw [← hsame]
      rw [this]
    · exact .inr (.inl hfound)
    · have hid := hids runId hin
      have hne : ∀ r ∈ s.tables.runs, r.id ≠ runId := fun r hr heq => hf _ hid (heq ▸ hi.ids r hr)
      obtain ⟨hrej, rfl⟩ := Runs.insertRun_eq hi.keyed hne (.inl rfl) hins
      refine .inr (.inr ⟨hc, List.mem_append_right _ (List.mem_singleton_self _), rfl, rfl, hrej, hset, p, hp, ?_⟩)
      intro result hr
      rw [hpc] at hr
      cases hr

theorem SubmitInv.empty (w : World) : SubmitInv env w Chat.empty :=
  ⟨List.forall_mem_nil _, List.forall_mem_nil _, List.forall_mem_nil _, List.forall_mem_nil _, List.forall_mem_nil _,
    fun i j p q _ _ _ _ h => by simp [Chat.empty] at h, List.forall_mem_nil _⟩

theorem SubmitInv.mono (h : SubmitInv env w s) (hw : ∀ i ∈ w.issued, i ∈ w'.issued) : SubmitInv env w' s :=
  ⟨h.keys, h.active, h.hashes, h.creators, h.results, h.once,
    fun p hp run created hd => ⟨hw _ (h.alive p hp run created hd).1, (h.alive p hp run created hd).2⟩⟩

/-- A key of a living conversation under which a submission succeeded is taken. -/
theorem SubmitInv.taken (h : SubmitInv env w s) {p : Runs.Submit} (hp : p ∈ s.submits) {run : AnswerRun}
    {created : Bool}
    (hd : p.pc = .done (.ok (run, created))) {run' : AnswerRun} (hc : run'.conversationId = p.conversationId)
    (hk : run'.requestKey = p.request.requestKey) : Runs.Rejects s.tables run' := by
  rcases (h.alive p hp run created hd).2 with ⟨r, hr, hrc, hrk⟩ | hgone
  · exact .inr (.inl ⟨r, hr, hrc.trans hc.symm, hrk.trans hk.symm⟩)
  · refine .inl ?_
    rintro ⟨c, hcm, hid⟩
    exact hgone c hcm (hid.trans hc)

/-- The creator of a run is remembered. -/
theorem created_kept (he : Effect env now ids db s t' as' sb' ws' log') {p : Runs.Submit}
    {conversationId requestKey runId : Uuid} (hp : p ∈ s.submits)
    (hcr : p.Created conversationId requestKey runId) : ∃ q ∈ sb', q.Created conversationId requestKey runId := by
  obtain ⟨i, hpi⟩ := List.mem_iff_getElem?.1 hp
  obtain ⟨hconv, hkey, run, hd, hid⟩ := hcr
  obtain ⟨pc', hp', hdone⟩ := submits_kept he hpi
  exact ⟨_, List.mem_of_getElem? hp', hconv, hkey, run, hdone _ hd, hid⟩

section Effect
variable (h : SubmitInv env w s) (hi : RunInv w s) (hf : ∀ i ∈ ids, i ∉ w.issued)
  (he : Effect env now ids db s t' as' sb' ws' log')
include h hi hf he

theorem SubmitInv.keys_effect : ∀ r ∈ t'.runs, ∀ r' ∈ t'.runs, r.conversationId = r'.conversationId →
    r.requestKey = r'.requestKey → r = r' := by
  have hkeyed := (written hi hf he).keyed hi hf
  have hmixed : ∀ {r₁ r₁' r₂' : AnswerRun}, r₁ ∈ s.tables.runs → Runs.Same r₁ r₁' → ¬ Runs.Rejects s.tables r₂' →
      r₁'.conversationId = r₂'.conversationId → r₁'.requestKey = r₂'.requestKey → False := by
    intro r₁ r₁' r₂' hr hs hrej hconv hkey
    exact hrej (.inr (.inl ⟨r₁, hr, hs.conversationId.symm.trans hconv, hs.requestKey.symm.trans hkey⟩))
  intro r₁' h₁ r₂' h₂ hconv hkey
  rcases runs_effect hi hf he h₁ with ⟨r₁, hr₁, hs₁, -⟩ | ⟨-, hrej₁, hruns₁, -⟩ <;>
    rcases runs_effect hi hf he h₂ with ⟨r₂, hr₂, hs₂, -⟩ | ⟨-, hrej₂, hruns₂, -⟩
  · have heq : r₁ = r₂ := h.keys r₁ hr₁ r₂ hr₂
      (hs₁.conversationId.symm.trans (hconv.trans hs₂.conversationId))
      (hs₁.requestKey.symm.trans (hkey.trans hs₂.requestKey))
    exact hkeyed.eq h₁ h₂ (hs₁.id.trans ((congrArg (·.id) heq).trans hs₂.id.symm))
  · exact (hmixed hr₁ hs₁ hrej₂ hconv hkey).elim
  · exact (hmixed hr₂ hs₂ hrej₁ hconv.symm hkey.symm).elim
  · exact (List.cons.inj (List.append_cancel_left (hruns₁.symm.trans hruns₂))).1

theorem SubmitInv.active_effect : ∀ r ∈ t'.runs, ∀ r' ∈ t'.runs, r.conversationId = r'.conversationId →
    r.status.Active → r'.status.Active → r = r' := by
  have hkeyed := (written hi hf he).keyed hi hf
  have hmixed : ∀ {r₁ r₁' r₂' : AnswerRun}, r₁ ∈ s.tables.runs → Runs.Same r₁ r₁' → r₁.status.Active →
      ¬ Runs.Rejects s.tables r₂' → r₁'.conversationId = r₂'.conversationId → False := by
    intro r₁ r₁' r₂' hr hs hact hrej hconv
    exact hrej (.inr (.inr ⟨r₁, hr, hs.conversationId.symm.trans hconv, hact⟩))
  intro r₁' h₁ r₂' h₂ hconv ha₁ ha₂
  rcases runs_effect hi hf he h₁ with ⟨r₁, hr₁, hs₁, hact₁⟩ | ⟨-, hrej₁, hruns₁, -⟩ <;>
    rcases runs_effect hi hf he h₂ with ⟨r₂, hr₂, hs₂, hact₂⟩ | ⟨-, hrej₂, hruns₂, -⟩
  · have heq : r₁ = r₂ := h.active r₁ hr₁ r₂ hr₂
      (hs₁.conversationId.symm.trans (hconv.trans hs₂.conversationId)) (hact₁ ha₁) (hact₂ ha₂)
    exact hkeyed.eq h₁ h₂ (hs₁.id.trans ((congrArg (·.id) heq).trans hs₂.id.symm))
  · exact (hmixed hr₁ hs₁ (hact₁ ha₁) hrej₂ hconv).elim
  · exact (hmixed hr₂ hs₂ (hact₂ ha₂) hrej₁ hconv.symm).elim
  · exact (List.cons.inj (List.append_cancel_left (hruns₁.symm.trans hruns₂))).1

theorem SubmitInv.creators_effect : ∀ r ∈ t'.runs, ∃ p ∈ sb', p.Created r.conversationId r.requestKey r.id := by
  intro r' hr'
  rcases runs_effect hi hf he hr' with ⟨r, hr, hs, -⟩ | ⟨-, -, -, i, p, runId, source, history, hp, hpc, rfl, rfl⟩
  · obtain ⟨p, hp, hcr⟩ := h.creators r hr
    rw [hs.conversationId, hs.requestKey, hs.id]
    exact created_kept he hp hcr
  · exact ⟨_, Table.mem_set_self hp, rfl, rfl, _, rfl, rfl⟩

theorem SubmitInv.results_effect : ∀ p ∈ sb', ∀ run created, p.pc = .done (.ok (run, created)) →
    ∃ q ∈ sb', q.Created p.conversationId p.request.requestKey run.id := by
  intro p' hp' run created hd
  obtain ⟨i, hpi⟩ := List.mem_iff_getElem?.1 hp'
  rcases succeeded_effect hi hf he hpi hd with hold | ⟨-, hrun, hconv, hkey⟩ | ⟨rfl, -⟩
  · obtain ⟨q, hq, hcr⟩ := h.results p' (List.mem_of_getElem? hold) run created hd
    exact created_kept he hq hcr
  · obtain ⟨q, hq, hcr⟩ := h.creators run hrun
    rw [← hconv, ← hkey]
    exact created_kept he hq hcr
  · exact ⟨p', hp', rfl, rfl, run, hd, rfl⟩

theorem SubmitInv.once_effect : ∀ (i j : Nat) (p q : Runs.Submit) (conversationId requestKey runId runId' : Uuid),
    sb'[i]? = some p → sb'[j]? = some q → p.Created conversationId requestKey runId →
      q.Created conversationId requestKey runId' → i = j := by
  have hmixed : ∀ {i j : Nat} {p q : Runs.Submit} {run run' : AnswerRun}, s.submits[j]? = some q →
      p.conversationId = q.conversationId → p.request.requestKey = q.request.requestKey →
      q.pc = .done (.ok (run', true)) → run.conversationId = p.conversationId →
      run.requestKey = p.request.requestKey → ¬ Runs.Rejects s.tables run → i = j := by
    intro i j p q run run' hq hcc hkk hdq hconv hkey hrej
    exact (hrej (h.taken (List.mem_of_getElem? hq) hdq (hconv.trans hcc) (hkey.trans hkk))).elim
  intro i j p q conversationId requestKey runId runId' hp hq hcp hcq
  obtain ⟨hpc, hpk, run, hdp, hpid⟩ := hcp
  obtain ⟨hqc, hqk, run', hdq, hqid⟩ := hcq
  rcases succeeded_effect hi hf he hp hdp with hold | ⟨hfalse, -⟩ | ⟨-, -, hconv, hkey, hrej, hset, p₀, hp₀, hnd⟩
  · rcases succeeded_effect hi hf he hq hdq with hold' | ⟨hfalse, -⟩ | ⟨-, -, hconv, hkey, hrej, -, -⟩
    · exact h.once i j p q conversationId requestKey runId runId' hold hold' ⟨hpc, hpk, run, hdp, hpid⟩
        ⟨hqc, hqk, run', hdq, hqid⟩
    · cases hfalse
    · exact (hmixed hold (hqc.trans hpc.symm) (hqk.trans hpk.symm) hdp hconv hkey hrej).symm
  · cases hfalse
  · rcases succeeded_effect hi hf he hq hdq with hold' | ⟨hfalse, -⟩ | ⟨-, -, -, -, -, hset', q₀, hq₀, hnd'⟩
    · exact hmixed hold' (hpc.trans hqc.symm) (hpk.trans hqk.symm) hdq hconv hkey hrej
    · cases hfalse
    · by_contra hij
      -- one action steps one submission
      rw [hset, List.getElem?_set_ne hij, hq₀] at hq
      cases hq
      exact hnd' _ hdq

theorem SubmitInv.alive_effect (hc : ConversationInv w s) (hw : ∀ i ∈ w.issued, i ∈ w'.issued) :
    ∀ p ∈ sb', ∀ run created, p.pc = .done (.ok (run, created)) → p.conversationId ∈ w'.issued ∧
      ((∃ r ∈ t'.runs, r.conversationId = p.conversationId ∧ r.requestKey = p.request.requestKey) ∨
        ∀ c ∈ t'.conversations, c.id ≠ p.conversationId) := by
  have hconversed := conversed hi hc (written hi hf he)
  have hrun : ∀ r ∈ s.tables.runs, r.conversationId ∈ w'.issued ∧
      ((∃ r' ∈ t'.runs, r'.conversationId = r.conversationId ∧ r'.requestKey = r.requestKey) ∨
        ∀ c ∈ t'.conversations, c.id ≠ r.conversationId) := by
    intro r hr
    obtain ⟨c, hcm, hid⟩ := hc.runs r hr
    refine ⟨hw _ (hid ▸ hc.ids c hcm), ?_⟩
    rcases runs_stay hi hc hf he hr with ⟨r', hr', hs⟩ | hgone
    · exact .inl ⟨r', hr', hs.conversationId, hs.requestKey⟩
    · exact .inr hgone
  intro p' hp' run created hd
  obtain ⟨i, hpi⟩ := List.mem_iff_getElem?.1 hp'
  rcases succeeded_effect hi hf he hpi hd with hold | ⟨-, hrm, hconv, hkey⟩ | ⟨-, hrm, hconv, hkey, hrej, -⟩
  · obtain ⟨hissued, halive⟩ := h.alive p' (List.mem_of_getElem? hold) run created hd
    rcases halive with ⟨r, hr, hrc, hrk⟩ | hgone
    · obtain ⟨hi', halive'⟩ := hrun r hr
      rw [hrc, hrk] at halive'
      exact ⟨hw _ hissued, halive'⟩
    · refine ⟨hw _ hissued, .inr fun c' hc' hid => ?_⟩
      rcases hconversed.mem hc' with ⟨c, hcm, hcid, -⟩ | hnew
      · exact hgone c hcm (hcid.trans hid)
      · exact hf _ hnew.1 (hid ▸ hissued)
  · obtain ⟨hi', halive'⟩ := hrun run hrm
    rw [hconv, hkey] at halive'
    exact ⟨hconv ▸ hi', halive'⟩
  · have hex : ∃ c ∈ s.tables.conversations, c.id = run.conversationId := not_not.1 fun hno => hrej (.inl hno)
    obtain ⟨c, hcm, hid⟩ := hex
    exact ⟨hw _ ((hid.trans hconv) ▸ hc.ids c hcm), .inl ⟨run, hrm, hconv, hkey⟩⟩

end Effect

theorem SubmitInv.effect (h : SubmitInv env w s) (hi : RunInv w s) (hc : ConversationInv w s)
    (hf : ∀ i ∈ ids, i ∉ w.issued) (hw : ∀ i ∈ w.issued, i ∈ w'.issued) {s' : Chat}
    (he : Effect env now ids db s s'.tables s'.asks s'.submits s'.workers s'.log) : SubmitInv env w' s' := by
  refine ⟨h.keys_effect hi hf he, h.active_effect hi hf he, fun r' hr' => ?_, h.creators_effect hi hf he,
    h.results_effect hi hf he, h.once_effect hi hf he, h.alive_effect hi hf he hc hw⟩
  rcases runs_effect hi hf he hr' with ⟨r, hr, hs, -⟩ | ⟨-, -, -, i, p, runId, source, history, -, -, rfl, -⟩
  · rw [hs.requestHash, hs.question, hs.mode]
    exact h.hashes r hr
  · rfl

end Chat
end RepoPilot
