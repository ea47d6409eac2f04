import RepoPilot.Generations

/-! # What is ready stays ready

The state that preparation reports and the lookup of a search are two ways of reading the same rows. A run is
accepted when its mode is ready for the source it is pinned to; completed generations stay, so its worker finds
one, unless the source has changed. -/

namespace RepoPilot

namespace Db
variable {db : Db} {repositoryId importId sourceIndexId : Uuid} {mode : Mode}

/-- The order of `newest`. -/
def NewerEq {π : Type} (a b : Job π) : Prop := b.createdAt < a.createdAt ∨ a.createdAt = b.createdAt ∧ a.id ≤ b.id

/-- `newest` is the last one created, and among those of one time the one of least identifier. -/
theorem newest_newer {π : Type} {rows : List (Job π)} {x : Job π} (h : newest rows = some x) :
    ∀ y ∈ rows, NewerEq x y := by
  let r : Job π → Job π → Prop := fun a b => b.createdAt < a.createdAt ∨ a.createdAt = b.createdAt ∧ a.id ≤ b.id
  have htotal : Std.Total r := ⟨fun a b => by
    show (_ ∨ _) ∨ (_ ∨ _)
    rcases lt_trichotomy a.createdAt b.createdAt with hlt | heq | hlt
    · exact .inr (.inl hlt)
    · exact (le_total a.id b.id).imp (fun hle => .inr ⟨heq, hle⟩) fun hle => .inr ⟨heq.symm, hle⟩
    · exact .inl (.inl hlt)⟩
  have htrans : IsTrans (Job π) r := ⟨fun a b c hab hbc => by
    rcases hab with hab | ⟨hab, hi⟩ <;> rcases hbc with hbc | ⟨hbc, hi'⟩
    · exact .inl (hbc.trans hab)
    · exact .inl (hbc ▸ hab)
    · exact .inl (hab ▸ hbc)
    · exact .inr ⟨hab.trans hbc, hi.trans hi'⟩⟩
  intro y hy
  have hsorted : (rows.insertionSort r).Pairwise r := List.pairwise_insertionSort r rows
  have hmem : y ∈ rows.insertionSort r := (List.mem_insertionSort r).2 hy
  have hhead : (rows.insertionSort r).head? = some x := h
  cases hl : rows.insertionSort r with
  | nil =>
    rw [hl] at hmem
    cases hmem
  | cons z l =>
    rw [hl] at hsorted hmem hhead
    cases Option.some.inj hhead
    rcases List.mem_cons.1 hmem with rfl | hmem
    · exact .inr ⟨rfl, le_refl _⟩
    · exact (List.pairwise_cons.1 hsorted).1 y hmem

/-- A completed index of the import. -/
def IndexOf (repositoryId importId : Uuid) (x : RepositoryIndex) : Prop :=
  x.repositoryId = repositoryId ∧ x.data.importJobId = importId ∧ x.status = .completed

instance (repositoryId importId : Uuid) : DecidablePred (IndexOf repositoryId importId) := fun x =>
  inferInstanceAs (Decidable (x.repositoryId = repositoryId ∧ x.data.importJobId = importId ∧ x.status = .completed))

/-- A completed search index of the source in the mode. -/
def SearchOf (repositoryId sourceIndexId : Uuid) (mode : Mode) (x : SearchIndex) : Prop :=
  x.repositoryId = repositoryId ∧ x.data.sourceIndexId = sourceIndexId ∧ x.status = .completed ∧
    x.data.mode = mode ∧ x.data.pipelineVersion = searchVersion

instance (repositoryId sourceIndexId : Uuid) (mode : Mode) : DecidablePred (SearchOf repositoryId sourceIndexId mode) :=
  fun x => inferInstanceAs (Decidable (x.repositoryId = repositoryId ∧ x.data.sourceIndexId = sourceIndexId ∧
    x.status = .completed ∧ x.data.mode = mode ∧ x.data.pipelineVersion = searchVersion))

/-- What a query for the newest of the rows with a property returns. -/
def IsNewest {π : Type} (rows : List (Job π)) (p : Job π → Prop) : Option (Job π) → Prop
  | some x => x ∈ rows ∧ p x ∧ ∀ y ∈ rows, p y → NewerEq x y
  | none => ∀ y ∈ rows, ¬ p y

theorem isNewest_filter {π : Type} (rows : List (Job π)) (p : Job π → Prop) [DecidablePred p] :
    IsNewest rows p (newest (rows.filter p)) := by
  cases h : newest (rows.filter p) with
  | none =>
    intro y hy hp
    have hm : y ∈ rows.filter p := List.mem_filter.2 ⟨hy, decide_eq_true hp⟩
    rw [newest_eq_none h] at hm
    cases hm
  | some x =>
    have hall := newest_newer h
    obtain ⟨hm, hp⟩ := List.mem_filter.1 (mem_of_newest h)
    exact ⟨hm, of_decide_eq_true hp, fun y hy hpy => hall y (List.mem_filter.2 ⟨hy, decide_eq_true hpy⟩)⟩

theorem activeIndex_isNewest (db : Db) (repositoryId importId : Uuid) :
    IsNewest db.indexes (IndexOf repositoryId importId) (db.activeIndex repositoryId importId) :=
  isNewest_filter db.indexes (IndexOf repositoryId importId)

theorem activeSearch_isNewest (db : Db) (repositoryId sourceIndexId : Uuid) (mode : Mode) :
    IsNewest db.searches (SearchOf repositoryId sourceIndexId mode) (db.activeSearch repositoryId sourceIndexId mode) :=
  isNewest_filter db.searches (SearchOf repositoryId sourceIndexId mode)

theorem IsNewest.isSome {π : Type} {rows : List (Job π)} {p : Job π → Prop} {o : Option (Job π)} (h : IsNewest rows p o)
    {y : Job π} (hy : y ∈ rows) (hp : p y) : o.isSome := by
  cases o with
  | none => exact absurd hp (h y hy)
  | some x => rfl

end Db

/-! ### Two ways of reading -/

namespace Searches

/-- The search index a state reports for a mode. -/
def State.index (state : State) : Mode → Option SearchIndex
  | .keyword => state.keyword
  | .hybrid => state.hybrid

theorem state_eq {db : Db} {userId repositoryId : Uuid} {state : State}
    (h : Searches.state db userId repositoryId = .ok state) :
    ∃ source, Searches.source db userId repositoryId = .ok source ∧
      state.keyword = (db.activeSearch repositoryId source.id .keyword).or
        (db.activeSearch repositoryId source.id .hybrid) ∧
      state.hybrid = db.activeSearch repositoryId source.id .hybrid := by
  unfold Searches.state at h
  cases hs : Searches.source db userId repositoryId with
  | error e =>
    rw [hs] at h
    cases h
  | ok source =>
    rw [hs] at h
    cases h
    exact ⟨source, rfl, rfl, rfl⟩

end Searches

namespace Answers
variable {env : Env} {now : Time} {c : Call} {query : Text} {db : Db} {t : Tables}

/-- `SearchService._search` up to its quota: ownership, the source, and the index of the mode. -/
def lookup (env : Env) (now : Time) (c : Call) (query : Text) (db : Db) (t : Tables) : Pc :=
  (fun pc => (step env now c .go pc db t).1)^[4] (.source query)

/-- What a lookup comes to. -/
def found (query : Text) (source : RepositoryIndex) : Option SearchIndex → Pc
  | some index => .quota (planOf query source index)
  | none => .raised (.app searchRequired)

theorem lookup_error {e : AppError} (h : Searches.state db c.userId c.repositoryId = .error e) :
    lookup env now c query db t = .raised (.app e) := by
  unfold Searches.state Searches.source at h
  unfold lookup
  simp only [Function.iterate_succ, Function.iterate_zero, Function.comp_apply, id_eq, step]
  cases ho : db.owned c.userId c.repositoryId with
  | error e' =>
    rw [ho] at h
    cases h
    rfl
  | ok p =>
    rw [ho] at h
    simp only at h ⊢
    cases ha : db.activeIndex c.repositoryId p.2.id with
    | none =>
      rw [ha] at h
      cases h
      rfl
    | some source =>
      rw [ha] at h
      cases h

/-- A search finds an index of a mode exactly when the state reports one, and it is that one. -/
theorem lookup_ok {state : Searches.State} (h : Searches.state db c.userId c.repositoryId = .ok state) :
    ∃ source, Searches.source db c.userId c.repositoryId = .ok source ∧
      lookup env now c query db t = found query source (state.index c.request.mode) := by
  obtain ⟨source, hs, hkeyword, hhybrid⟩ := Searches.state_eq h
  refine ⟨source, hs, ?_⟩
  unfold Searches.source at hs
  unfold lookup
  simp only [Function.iterate_succ, Function.iterate_zero, Function.comp_apply, id_eq, step]
  cases ho : db.owned c.userId c.repositoryId with
  | error e' =>
    rw [ho] at hs
    cases hs
  | ok p =>
    rw [ho] at hs
    simp only at hs ⊢
    cases ha : db.activeIndex c.repositoryId p.2.id with
    | none =>
      rw [ha] at hs
      cases hs
    | some source' =>
      rw [ha] at hs
      cases hs
      simp only
      cases hm : c.request.mode with
      | keyword =>
        simp only [Searches.State.index, hkeyword]
        cases hk : db.activeSearch c.repositoryId source.id .keyword with
        | some index => rfl
        | none =>
          simp only [Option.none_or]
          cases db.activeSearch c.repositoryId source.id .hybrid <;> rfl
      | hybrid =>
        simp only [Searches.State.index, hhybrid]
        cases db.activeSearch c.repositoryId source.id .hybrid <;> rfl

end Answers

/-! ### What a run relies on -/

/-- A search index of mode `built` answers searches of mode `mode`. -/
def Covers (built mode : Mode) : Prop := built = mode ∨ mode = .keyword ∧ built = .hybrid

namespace Db
variable {issued ids : List Uuid} {db : Db} {sourceId repositoryId : Uuid} {mode : Mode}

/-- `sourceId` is an index of the repository, and as long as the repository is there it is a completed one. -/
structure Located (issued : List Uuid) (db : Db) (sourceId repositoryId : Uuid) : Prop where
  source : sourceId ∈ issued
  repository : repositoryId ∈ issued
  row : ∀ i ∈ db.indexes, i.id = sourceId → i.repositoryId = repositoryId
  stands : (∃ r ∈ db.repositories, r.id = repositoryId) →
    ∃ i ∈ db.indexes, i.id = sourceId ∧ i.repositoryId = repositoryId ∧ i.status = .completed

/-- The index `sourceId`, as long as it is there, has a completed search index that answers `mode`. -/
def Assured (issued : List Uuid) (db : Db) (sourceId : Uuid) (mode : Mode) : Prop :=
  sourceId ∈ issued ∧ ∀ i ∈ db.indexes, i.id = sourceId →
    ∃ m, Covers m mode ∧ ∃ x ∈ db.searches, SearchOf i.repositoryId sourceId m x

theorem Located.mono (h : Located issued db sourceId repositoryId) : Located (issued ++ ids) db sourceId repositoryId :=
  ⟨List.mem_append_left _ h.source, List.mem_append_left _ h.repository, h.row, h.stands⟩

theorem Assured.mono (h : Assured issued db sourceId mode) : Assured (issued ++ ids) db sourceId mode :=
  ⟨List.mem_append_left _ h.1, h.2⟩

theorem SearchOf.filed {m : Mode} {x x' : SearchIndex} (h : SearchOf repositoryId sourceId m x) (hf : Job.Filed x x') :
    SearchOf repositoryId sourceId m x' := by
  obtain ⟨hr, hs, hc, hm, hv⟩ := h
  exact ⟨hf.repositoryId_eq.trans hr, hf.data_eq ▸ hs, hf.status_eq.trans hc, hf.data_eq ▸ hm, hf.data_eq ▸ hv⟩

/-- The source of a repository is located. -/
theorem located_source {w : World} {userId : Uuid} {source : RepositoryIndex} (hg : Job.Good w db.indexes)
    (hr : ∀ r ∈ db.repositories, r.id ∈ w.issued) (h : Searches.source db userId repositoryId = .ok source) :
    Located w.issued db source.id repositoryId := by
  obtain ⟨_, _, ho, ha⟩ := Searches.source_eq h
  obtain ⟨hrm, hrid, -⟩ := owned_eq ho
  obtain ⟨hm, hsr, -, hc⟩ := activeIndex_eq ha
  exact ⟨hg.ids source hm, hrid ▸ hr _ hrm, fun i hi hid => hg.keyed.eq hi hm hid ▸ hsr,
    fun _ => ⟨source, hm, rfl, hsr, hc⟩⟩

/-- A repository has one completed index. -/
theorem Located.unique {w : World} {userId : Uuid} {source : RepositoryIndex}
    (h : Located w.issued db sourceId repositoryId) (hg : Job.Good w db.indexes)
    (hc : ∀ x ∈ db.indexes, x.status = .completed → x.isCurrent = true)
    (hs : Searches.source db userId repositoryId = .ok source) : source.id = sourceId := by
  obtain ⟨_, _, ho, ha⟩ := Searches.source_eq hs
  obtain ⟨hrm, hrid, -⟩ := owned_eq ho
  obtain ⟨hm, hsr, -, hcs⟩ := activeIndex_eq ha
  obtain ⟨i, hi, hid, hir, hci⟩ := h.stands ⟨_, hrm, hrid⟩
  have he : i = source := hg.current i hi source hm (hc i hi hci) (hc source hm hcs) (hir.trans hsr.symm)
  exact he ▸ hid

/-- What was ready in the state is there for the source that was read before it. -/
theorem Located.assured {w : World} {userId : Uuid} {state : Searches.State}
    (h : Located w.issued db sourceId repositoryId)
    (hg : Job.Good w db.indexes) (hc : ∀ x ∈ db.indexes, x.status = .completed → x.isCurrent = true)
    (hs : Searches.state db userId repositoryId = .ok state) (hready : (state.index mode).isSome) :
    Assured w.issued db sourceId mode := by
  obtain ⟨source, hsrc, hkeyword, hhybrid⟩ := Searches.state_eq hs
  have hid := h.unique hg hc hsrc
  obtain ⟨_, _, -, ha⟩ := Searches.source_eq hsrc
  obtain ⟨hm, hr, -, -⟩ := activeIndex_eq ha
  refine ⟨h.source, fun i hi hi' => ?_⟩
  have he : i = source := hg.keyed.eq hi hm (hi'.trans hid.symm)
  have hfound : ∀ m, (db.activeSearch repositoryId source.id m).isSome →
      ∃ x ∈ db.searches, SearchOf i.repositoryId sourceId m x := by
    intro m hsome
    obtain ⟨x, hx⟩ := Option.isSome_iff_exists.1 hsome
    rw [he, hr, ← hid]
    exact ⟨x, (activeSearch_eq hx).1, (activeSearch_eq hx).2⟩
  cases mode with
  | hybrid =>
    rw [Searches.State.index, hhybrid] at hready
    exact ⟨.hybrid, .inl rfl, hfound .hybrid hready⟩
  | keyword =>
    rw [Searches.State.index, hkeyword, Option.isSome_or, Bool.or_eq_true] at hready
    rcases hready with hready | hready
    · exact ⟨.keyword, .inl rfl, hfound .keyword hready⟩
    · exact ⟨.hybrid, .inr ⟨rfl, rfl⟩, hfound .hybrid hready⟩

end Db

namespace Jobs
variable {env : Env} {now : Time} {a : Action} {s : Jobs} {w : World} {sourceId repositoryId : Uuid} {mode : Mode}

/-- An index that is there after an action was there before. -/
theorem index_earlier (env : Env) (now : Time) (h : Inv w s) (hv : Piped s.db.indexes) (hf : ∀ i ∈ a.ids, i ∉ w.issued)
    {i' : RepositoryIndex} (hi' : i' ∈ (step env now a s).db.indexes) (hid : i'.id ∈ w.issued) :
    ∃ i ∈ s.db.indexes, i.id = i'.id ∧ i.repositoryId = i'.repositoryId := by
  by_cases ha : a.kind = .removal
  · cases a <;> try cases ha
    case pos.removeRepository.refl userId gone =>
      simp only [step] at hi'
      rcases removeRepository_cases s.db userId gone with he | he <;> rw [he] at hi'
      · exact ⟨i', hi', rfl, rfl⟩
      · exact ⟨i', List.mem_of_mem_filter hi', rfl, rfl⟩
  · rcases (indexes_tended env now h.indexes hv ha).earlier hi' with ⟨i, hi, hk⟩ | hn
    · exact ⟨i, hi, hk.same.1.symm, hk.same.2.1.symm⟩
    · exact absurd hid (hf _ hn.id)

/-- A completed search index stays as long as an index of its repository does. -/
theorem search_later (env : Env) (now : Time) (h : Inv w s) {i' : RepositoryIndex}
    (hi' : i' ∈ (step env now a s).db.indexes) {x : SearchIndex} (hx : x ∈ s.db.searches)
    (hr : x.repositoryId = i'.repositoryId) (hc : x.status = .completed) :
    ∃ x' ∈ (step env now a s).db.searches, Job.Filed x x' := by
  by_cases ha : a.kind = .removal
  · cases a <;> try cases ha
    case pos.removeRepository.refl userId gone =>
      simp only [step] at hi' ⊢
      rcases removeRepository_cases s.db userId gone with he | he <;> rw [he] at hi' ⊢
      · exact ⟨x, hx, .refl x⟩
      · have hne := of_decide_eq_true (List.mem_filter.1 hi').2
        exact ⟨x, List.mem_filter.2 ⟨hx, decide_eq_true (hr.trans_ne hne)⟩, .refl x⟩
  · obtain ⟨x', hx', hk⟩ := (searches_tended env now h.searches h.profiled ha).later hx
    exact ⟨x', hx', hk.completed hc⟩

theorem located_step (hl : Db.Located w.issued s.db sourceId repositoryId) (h : Inv w s)
    (hv : Piped s.db.indexes) (hf : ∀ i ∈ a.ids, i ∉ w.issued) :
    Db.Located (w.issued ++ a.ids) (step env now a s).db sourceId repositoryId := by
  refine ⟨List.mem_append_left _ hl.source, List.mem_append_left _ hl.repository, ?row, ?stands⟩
  case row =>
    intro i' hi' hid
    obtain ⟨i, hi, hid', hr⟩ := index_earlier env now h hv hf hi' (hid ▸ hl.source)
    exact hr.symm.trans (hl.row i hi (hid'.trans hid))
  case stands =>
    intro ⟨r', hr', hid⟩
    obtain ⟨r, hr, hrid⟩ := (repositoryChange env now a s).earlier hf hr' (hid ▸ hl.repository)
    obtain ⟨i, hi, hs, hrepo, hc⟩ := hl.stands ⟨r, hr, hrid.trans hid⟩
    obtain ⟨⟨i', hi', hf'⟩, -⟩ := (lasting env now h hv ⟨r', hr', hid⟩).indexes i hi hrepo hc
    have hf := hf'.filed
    exact ⟨i', hi', hf.id_eq.trans hs, hf.repositoryId_eq.trans hrepo, hf.status_eq.trans hc⟩

theorem assured_step (hl : Db.Assured w.issued s.db sourceId mode) (h : Inv w s) (hv : Piped s.db.indexes)
    (hf : ∀ i ∈ a.ids, i ∉ w.issued) : Db.Assured (w.issued ++ a.ids) (step env now a s).db sourceId mode := by
  refine ⟨List.mem_append_left _ hl.1, fun i' hi' hid => ?_⟩
  obtain ⟨i, hi, hid', hr⟩ := index_earlier env now h hv hf hi' (hid ▸ hl.1)
  obtain ⟨m, hm, x, hx, ho⟩ := hl.2 i hi (hid'.trans hid)
  rw [hr] at ho
  obtain ⟨x', hx', hfiled⟩ := search_later env now h hi' hx ho.1 ho.2.2.1
  exact ⟨m, hm, x', hx', ho.filed hfiled⟩

end Jobs

/-! ### The processes -/

namespace Runs

/-- The index a submission has read, as far as it has got. -/
def SubmitPc.Prepared (issued : List Uuid) (db : Db) (mode : Mode) : SubmitPc → Prop
  | .state repositoryId read => Db.Located issued db read.id repositoryId
  | .limit read | .history read | .insert read _ => Db.Assured issued db read.id mode
  | _ => True

end Runs

namespace Answers

/-- The index a lookup has read, as far as it has got. -/
def Pc.Prepared (issued : List Uuid) (db : Db) (c : Call) : Pc → Prop
  | .active _ read => Db.Located issued db read.id c.repositoryId
  | .fallback _ read => Db.Located issued db read.id c.repositoryId ∧
    (c.expectedSourceId = some read.id → Db.Assured issued db read.id .hybrid)
  | _ => True

end Answers

namespace Runs

/-- What a call is pinned to is assured. -/
structure Pinned (issued : List Uuid) (db : Db) (call : Call) : Prop where
  repository : call.repositoryId ∈ issued
  assured : ∀ e, call.expectedSourceId = some e → Db.Assured issued db e call.request.mode

/-- What the worker's call is pinned to, and what its lookup has read. -/
def Pc.Prepared (issued : List Uuid) (db : Db) : Pc → Prop
  | .answering _ _ call pc => Pinned issued db call ∧ pc.Prepared issued db call
  | _ => True

end Runs

namespace Chat

/-- What was read by the processes, and what runs are pinned to. -/
structure PreparedInv (issued : List Uuid) (db : Db) (s : Chat) : Prop where
  runs : ∀ r ∈ s.tables.runs, Db.Assured issued db r.sourceIndexId r.mode
  submits : ∀ p ∈ s.submits, p.pc.Prepared issued db p.request.mode
  workers : ∀ k ∈ s.workers, k.pc.Prepared issued db

theorem PreparedInv.empty (issued : List Uuid) (db : Db) : PreparedInv issued db Chat.empty :=
  ⟨List.forall_mem_nil _, List.forall_mem_nil _, List.forall_mem_nil _⟩

section Kept
variable {issued issued' : List Uuid} {db db' : Db} {s s' : Chat}

/-- What is located and assured stays so. -/
structure Carried (issued issued' : List Uuid) (db db' : Db) : Prop where
  located : ∀ {sourceId repositoryId}, Db.Located issued db sourceId repositoryId →
    Db.Located issued' db' sourceId repositoryId
  assured : ∀ {sourceId mode}, Db.Assured issued db sourceId mode → Db.Assured issued' db' sourceId mode
  ids : ∀ i ∈ issued, i ∈ issued'

theorem Carried.submit (h : Carried issued issued' db db') {pc : Runs.SubmitPc} {mode : Mode}
    (hp : pc.Prepared issued db mode) : pc.Prepared issued' db' mode := by
  cases pc with
  | state repositoryId source => exact h.located hp
  | limit source => exact h.assured hp
  | history source => exact h.assured hp
  | insert source history => exact h.assured hp
  | _ => exact trivial

theorem Carried.answer (h : Carried issued issued' db db') {c : Call} {pc : Answers.Pc}
    (hp : pc.Prepared issued db c) : pc.Prepared issued' db' c := by
  cases pc with
  | active query source => exact h.located hp
  | fallback query source => exact ⟨h.located hp.1, fun he => h.assured (hp.2 he)⟩
  | _ => exact trivial

theorem Carried.worker (h : Carried issued issued' db db') {pc : Runs.Pc} (hp : pc.Prepared issued db) :
    pc.Prepared issued' db' := by
  cases pc with
  | answering conversationId question call pc =>
    exact ⟨⟨h.ids _ hp.1.repository, fun e he => h.assured (hp.1.assured e he)⟩, h.answer hp.2⟩
  | _ => exact trivial

/-- The invariant goes with what is carried, and with the rows that are removed. -/
theorem PreparedInv.carried (h : PreparedInv issued db s) (hc : Carried issued issued' db db')
    (hr : ∀ r ∈ s'.tables.runs, r ∈ s.tables.runs) (hsb : s'.submits = s.submits) (hws : s'.workers = s.workers) :
    PreparedInv issued' db' s' := by
  refine ⟨fun r hrm => hc.assured (h.runs r (hr r hrm)), fun p hp => ?_, fun k hk => ?_⟩
  · rw [hsb] at hp
    exact hc.submit (h.submits p hp)
  · rw [hws] at hk
    exact hc.worker (h.workers k hk)

end Kept

section Steps
variable {env : Env} {now : Time} {a : Action} {db : Db} {s : Chat}

/-- A submission after an action is old, new, or has taken its step. -/
theorem submits_step {p' : Runs.Submit} (hp' : p' ∈ (step env now a db s).submits) :
    p' ∈ s.submits ∨ p'.pc = .owned ∨
      ∃ p ∈ s.submits, ∃ input, p' = { p with pc := (p.step env now input db s.tables).1 } := by
  have hold : (step env now a db s).submits = s.submits → p' ∈ s.submits := fun h => h ▸ hp'
  cases a with
  | submit settings userId conversationId requestKey question mode =>
    simp only [step] at hp'
    split at hp'
    · exact .inl hp'
    · rcases List.mem_append.1 hp' with hp' | hp'
      · exact .inl hp'
      · rw [List.mem_singleton.1 hp']
        exact .inr (.inl rfl)
  | submitStep i input =>
    simp only [step, submitStep] at hp'
    split at hp'
    · exact .inl hp'
    · rename_i p hp
      split at hp'
      · exact .inl hp'
      · rcases Table.mem_set_cases hp' with rfl | ⟨j, -, hj⟩
        · exact .inr (.inr ⟨p, Table.mem_of_getElem? hp, input, rfl⟩)
        · exact .inl (Table.mem_of_getElem? hj)
  | create userId repositoryId conversationId title limit =>
    refine .inl (hold ?_)
    simp only [step]
    split
    · rfl
    · split <;> rfl
  | remove userId conversationId =>
    refine .inl (hold ?_)
    simp only [step]
    split <;> rfl
  | ask settings embedder model userId conversationId question mode answerId =>
    refine .inl (hold ?_)
    simp only [step]
    split <;> rfl
  | askStep i input =>
    refine .inl (hold ?_)
    simp only [step, askStep]
    split
    · rfl
    · split <;> rfl
  | cancel userId runId =>
    refine .inl (hold ?_)
    simp only [step]
    split <;> rfl
  | deliver settings embedder model streaming runId token =>
    refine .inl (hold ?_)
    simp only [step, deliver]
    split <;> rfl
  | workerStep i input =>
    refine .inl (hold ?_)
    simp only [step, workerStep]
    split
    · rfl
    · split <;> rfl
  | dispatch => exact .inl hp'
  | cycleStep i succeeded =>
    refine .inl (hold ?_)
    simp only [step]
    split <;> rfl

end Steps
end Chat

/-- What the processes may rely on when they read. -/
structure Db.Steady (w : World) (db : Db) : Prop where
  indexes : Job.Good w db.indexes
  current : ∀ x ∈ db.indexes, x.status = .completed → x.isCurrent = true
  repositories : ∀ r ∈ db.repositories, r.id ∈ w.issued

namespace Runs
variable {env : Env} {now : Time} {w : World} {db : Db} {t t' : Tables}

theorem Ready.index {settings : Settings} {mode : Mode} {state : Searches.State} (h : Ready settings mode state) :
    (state.index mode).isSome := by
  cases mode with
  | keyword => exact h
  | hybrid => exact h.1

theorem Submit.prepared_step {p : Submit} {input : SubmitInput} (hs : db.Steady w)
    (h : p.pc.Prepared w.issued db p.request.mode) :
    (p.step env now input db t).1.Prepared w.issued db p.request.mode := by
  unfold Submit.step
  split
  · exact h
  · exact h
  · exact trivial
  · split <;> exact trivial
  · exact trivial
  · split
    · exact trivial
    · split <;> exact trivial
  · split
    · exact trivial
    · split <;> exact trivial
  · split <;> exact trivial
  · split <;> exact trivial
  · split
    · exact trivial
    · exact Db.located_source hs.indexes hs.repositories ‹_›
  · rename_i repositoryId source hpc
    rw [hpc] at h
    split
    · exact trivial
    · rename_i state hstate
      split
      · rename_i hready
        exact Db.Located.assured h hs.indexes hs.current hstate hready.index
      · exact trivial
  · rename_i hpc
    rw [hpc] at h
    split
    · exact trivial
    · exact h
  · rename_i hpc
    rw [hpc] at h
    split
    · exact trivial
    · exact h
  · dsimp only
    split <;> exact trivial
  · split <;> exact trivial
  · exact h

end Runs

namespace Answers
open Generation
variable {env : Env} {now : Time} {w : World} {c : Call} {input : Input} {pc pc' : Pc} {db : Db} {t t' : Tables}

theorem Pc.Raising.prepared (h : pc.Raising) : pc.Prepared w.issued db c := by
  cases pc <;> first | exact trivial | cases h

theorem Selected.prepared {plan : Plan} {channels : List (String × List Uuid)} (h : Selected c plan channels pc) :
    pc.Prepared w.issued db c := by
  cases h with
  | raised h => exact h.prepared
  | _ => exact trivial

theorem Embedded.prepared {plan : Plan} {channels : List (String × List Uuid)} {p : EmbeddingProvider}
    {response : EmbeddingBatch} (h : Embedded plan channels p response pc) : pc.Prepared w.issued db c := by
  cases h with
  | raised h => exact h.prepared
  | _ => exact trivial

theorem Retrieving.prepared {retrieved : Retrieved} (h : Retrieving env c retrieved pc) :
    pc.Prepared w.issued db c := by
  cases h with
  | raised h => exact h.prepared
  | _ => exact trivial

theorem Concluding.prepared {retrieved : Retrieved} {included : List HistoryTurn} {result : GenerationResult}
    (h : Concluding env c retrieved included result pc) : pc.Prepared w.issued db c := by
  cases h with
  | raised h => exact h.prepared
  | _ => exact trivial

/-- A keyword search that found no index of its own mode has one of the other, if it was assured one. -/
theorem hybrid_assured {source : RepositoryIndex} (h : Db.Assured w.issued db source.id .keyword)
    (hl : Db.Located w.issued db source.id c.repositoryId)
    (hnone : db.activeSearch c.repositoryId source.id .keyword = none) : Db.Assured w.issued db source.id .hybrid := by
  refine ⟨h.1, fun i hi hid => ?_⟩
  obtain ⟨m, hm, x, hx, ho⟩ := h.2 i hi hid
  rcases hm with rfl | ⟨-, rfl⟩
  · rw [hl.row i hi hid] at ho
    have hsome := (Db.activeSearch_isNewest db c.repositoryId source.id .keyword).isSome hx ho
    rw [hnone] at hsome
    cases hsome
  · exact ⟨.hybrid, .inl rfl, x, hx, ho⟩

theorem Effect.prepared (hs : db.Steady w) (hpin : Runs.Pinned w.issued db c)
    (h : Effect env now c input pc db t pc' t') (hp : pc.Prepared w.issued db c) : pc'.Prepared w.issued db c := by
  cases h with
  | idle => exact hp
  | raised h => exact h.prepared
  | @indexed query importId source hpc h =>
    obtain ⟨hm, hr, -, hc⟩ := Db.activeIndex_eq h
    exact ⟨hs.indexes.ids source hm, hpin.repository, fun i hi hid => hs.indexes.keyed.eq hi hm hid ▸ hr,
      fun _ => ⟨source, hm, rfl, hr, hc⟩⟩
  | fell hpc hm h =>
    subst hpc
    refine ⟨hp, fun he => ?_⟩
    have ha := hpin.assured _ he
    rw [hm] at ha
    exact hybrid_assured ha hp h
  | selected hpc h => exact h.prepared
  | finishedEmbedding hpc hf h => exact h.prepared
  | loaded hpc hf h => exact h.prepared
  | finishedGeneration hpc hf h => exact h.prepared
  | _ => exact trivial

/-- A lookup that has read what its call is pinned to finds a search index. -/
theorem lookup_succeeds {query : Text} {source : RepositoryIndex} (hpin : Runs.Pinned w.issued db c)
    (he : c.expectedSourceId = some source.id) (hi : ∃ i ∈ db.indexes, i.id = source.id)
    (hpc : pc = .active query source ∨ pc = .fallback query source) (hp : pc.Prepared w.issued db c) :
    (step env now c .go pc db t).1 ≠ .raised (.app searchRequired) := by
  obtain ⟨i, hi, hid⟩ := hi
  rcases hpc with rfl | rfl
  · obtain ⟨m, hm, x, hx, ho⟩ := (hpin.assured _ he).2 i hi hid
    rw [hp.row i hi hid] at ho
    simp only [step]
    cases ha : db.activeSearch c.repositoryId source.id c.request.mode with
    | some index => exact nofun
    | none =>
      rcases hm with hm | ⟨hm, -⟩
      · have hsome := (Db.activeSearch_isNewest db c.repositoryId source.id m).isSome hx ho
        rw [hm, ha] at hsome
        cases hsome
      · rw [hm]
        exact nofun
  · obtain ⟨m, hm, x, hx, ho⟩ := (hp.2 he).2 i hi hid
    rw [hp.1.row i hi hid] at ho
    have hm : m = .hybrid := hm.elim id fun h => h.2
    rw [hm] at ho
    have hsome := (Db.activeSearch_isNewest db c.repositoryId source.id .hybrid).isSome hx ho
    obtain ⟨y, hy⟩ := Option.isSome_iff_exists.1 hsome
    simp only [step, hy]
    exact nofun

end Answers

namespace Runs
variable {env : Env} {now : Time} {w : World} {k : Worker} {input : Answers.Input} {pc' : Pc} {db : Db} {t t' : Tables}

theorem Pc.Ending.prepared {pc : Pc} (h : pc.Ending) : pc.Prepared w.issued db := by
  cases pc <;> first | exact trivial | cases h

theorem Pc.prepared_resume {conversationId : Uuid} {question : Text} {call : Call} {pc : Answers.Pc}
    (hpin : Pinned w.issued db call) (hp : pc.Prepared w.issued db call) :
    (Pc.resume conversationId question call pc).Prepared w.issued db := by
  cases pc with
  | answered answer => exact trivial
  | raised e => exact (handler_ending e).prepared
  | _ => exact ⟨hpin, hp⟩

theorem Worker.Effect.prepared (hs : db.Steady w) (hruns : ∀ r ∈ t.runs, Db.Assured w.issued db r.sourceIndexId r.mode)
    (hc : ∀ c ∈ t.conversations, c.repositoryId ∈ w.issued) (h : Worker.Effect env now k input db t pc' t')
    (hp : k.pc.Prepared w.issued db) : pc'.Prepared w.issued db := by
  cases h with
  | idle => exact hp
  | ending h => exact h.prepared
  | @loaded run conversation request hpc hr hid hst hcm hcid hm =>
    refine ⟨⟨hc _ hcm, fun e he => ?_⟩, trivial⟩
    cases he
    have ha := hruns _ hr
    rw [← hm] at ha
    exact ha
  | answering hpc h =>
    rw [hpc] at hp
    exact Pc.prepared_resume hp.1 (h.prepared hs hp.1 hp.2)
  | published => exact trivial
  | failed => exact trivial

end Runs

namespace Chat
variable {env : Env} {now : Time} {a : Action} {w : World} {db : Db} {s : Chat}

/-- The invariant holds after an action on the conversations. -/
theorem PreparedInv.step (h : PreparedInv (w.issued ++ a.ids) db s) (hs : db.Steady ⟨w.clock, w.issued ++ a.ids⟩)
    (hi : RunInv w s) (hf : ∀ i ∈ a.ids, i ∉ w.issued) (hc : ∀ c ∈ s.tables.conversations, c.repositoryId ∈ w.issued) :
    PreparedInv (w.issued ++ a.ids) db (step env now a db s) := by
  have he := step_effect env now a db s
  refine ⟨fun r' hr' => ?runs, fun p' hp' => ?submits, fun k' hk' => ?workers⟩
  case runs =>
    rcases runs_effect hi hf he hr' with ⟨r, hr, hsame, -⟩ | ⟨-, -, -, i, p, runId, source, history, hp, hpc, rfl, -⟩
    · rw [hsame.sourceIndexId, hsame.mode]
      exact h.runs r hr
    · have hprep := h.submits p (Table.mem_of_getElem? hp)
      rw [hpc] at hprep
      exact hprep
  case submits =>
    rcases submits_step hp' with hp' | hpc | ⟨p, hp, input, rfl⟩
    · exact h.submits p' hp'
    · rw [hpc]
      exact trivial
    · exact Runs.Submit.prepared_step hs (h.submits p hp)
  case workers =>
    rcases workers_effect he hk' with hk' | ⟨hpc, -⟩ | ⟨k, hk, input, pc', rfl, he⟩
    · exact h.workers k' hk'
    · rw [hpc]
      exact trivial
    · exact he.prepared hs h.runs (fun c hcm => List.mem_append_left _ (hc c hcm)) (h.workers k hk)

end Chat

namespace Db
variable {repositoryId : Uuid} {db db' : Db}

theorem Lasting.activeIndex (h : Lasting repositoryId db db') {importId : Uuid}
    (ha : (db.activeIndex repositoryId importId).isSome) : (db'.activeIndex repositoryId importId).isSome := by
  obtain ⟨x, hx⟩ := Option.isSome_iff_exists.1 ha
  have hn := activeIndex_isNewest db repositoryId importId
  rw [hx] at hn
  obtain ⟨hm, ⟨hr, hi, hs⟩, -⟩ := hn
  obtain ⟨⟨x', hx', hf⟩, -⟩ := h.indexes x hm hr hs
  have hf := hf.filed
  exact (activeIndex_isNewest db' repositoryId importId).isSome hx'
    ⟨hf.repositoryId_eq.trans hr, hf.data_eq ▸ hi, hf.status_eq.trans hs⟩

theorem Lasting.activeSearch (h : Lasting repositoryId db db') {sourceId : Uuid} {mode : Mode}
    (ha : (db.activeSearch repositoryId sourceId mode).isSome) :
    (db'.activeSearch repositoryId sourceId mode).isSome := by
  obtain ⟨x, hx⟩ := Option.isSome_iff_exists.1 ha
  have hn := activeSearch_isNewest db repositoryId sourceId mode
  rw [hx] at hn
  obtain ⟨hm, ho, -⟩ := hn
  obtain ⟨⟨x', hx', hf⟩, -⟩ := h.searches x hm ho.1 ho.2.2.1
  exact (activeSearch_isNewest db' repositoryId sourceId mode).isSome hx' (ho.filed hf)

end Db

/-! ### Every run -/

namespace System
variable {env : Env}

structure ReadyInv (env : Env) (s : System) : Prop where
  gen : GenInv env s
  prepared : Chat.PreparedInv s.world.issued s.jobs.db s.chat

theorem GenInv.steady {s : System} (h : GenInv env s) : s.jobs.db.Steady s.world :=
  ⟨h.jobs.inv.indexes, h.generations.current, h.chat.owners.ids⟩

theorem GenInv.conversations {s : System} (h : GenInv env s) :
    ∀ c ∈ s.chat.tables.conversations, c.repositoryId ∈ s.world.issued := by
  intro c hc
  obtain ⟨r, hr, hid, -⟩ := h.chat.owners.conversations c hc
  exact hid ▸ h.chat.owners.ids r hr

theorem cascade_prepared {issued issued' : List Uuid} {db db' : Db} {s : System} (a : Jobs.Action)
    (h : Chat.PreparedInv issued db s.chat) (hc : Chat.Carried issued issued' db db') :
    Chat.PreparedInv issued' db' (s.cascade a) := by
  unfold cascade
  split
  · unfold Chat.removeRepository
    split
    · exact h.carried hc (fun _ hr => hr) rfl rfl
    · exact h.carried hc (fun _ hr => List.mem_of_mem_filter hr) rfl rfl
  · exact h.carried hc (fun _ hr => hr) rfl rfl

theorem readyInv_step (s : System) (a : Action) (h : ReadyInv env s) : ReadyInv env (step env s a) := by
  refine ⟨genInv_step s a h.gen, ?_⟩
  cases a with
  | tick elapsed => exact h.prepared
  | jobs a =>
    simp only [step]
    split
    · rename_i hfr
      have hi := h.gen.jobs.inv
      have hv := h.gen.generations.piped
      exact cascade_prepared a h.prepared ⟨fun hl => Jobs.located_step hl hi hv hfr.1.2,
        fun hl => Jobs.assured_step hl hi hv hfr.1.2, fun i hm => List.mem_append_left _ hm⟩
    · exact h.prepared
  | chat a =>
    simp only [step]
    split
    · rename_i hfr
      have hkeep : Chat.PreparedInv (s.world.issued ++ a.ids) s.jobs.db s.chat :=
        h.prepared.carried ⟨fun hl => hl.mono, fun hl => hl.mono, fun i hm => List.mem_append_left _ hm⟩
          (fun _ hr => hr) rfl rfl
      have hs := h.gen.steady
      exact hkeep.step ⟨hs.indexes.mono fun i hm => List.mem_append_left _ hm, hs.current,
        fun r hr => List.mem_append_left _ (hs.repositories r hr)⟩ h.gen.chat.runs hfr.2 h.gen.conversations
    · exact h.prepared

theorem readyInv (env : Env) (acts : List Action) : ReadyInv env (run env acts) :=
  Machine.invariant ⟨genInv env [], .empty _ _⟩ readyInv_step acts

/-- The worker of a run finds a search index as long as the active source is the one the run is pinned to. -/
def Found (env : Env) (s : System) (r : AnswerRun) : Prop :=
  ∀ k ∈ s.chat.workers, k.runId = r.id → ∀ conversationId question call pc query source active,
    k.pc = .answering conversationId question call pc → (pc = .active query source ∨ pc = .fallback query source) →
      Searches.source s.jobs.db call.userId call.repositoryId = .ok active → active.id = r.sourceIndexId →
        ∀ now, (Answers.step env now call .go pc s.jobs.db s.chat.tables).1 ≠ .raised (.app Answers.searchRequired)

theorem ReadyInv.found {s : System} (h : ReadyInv env s) {r : AnswerRun} (hr : r ∈ s.chat.tables.runs) :
    Found env s r := by
  intro k hk hid conversationId question call pc query source active hkpc hpc ha hact now
  have hserves := h.gen.chat.runs.workers k hk
  have hprep := h.prepared.workers k hk
  rw [hkpc] at hprep
  unfold Runs.Worker.Serves at hserves
  rw [hkpc] at hserves
  have hexp := (hserves.1.row r hr hid.symm).2.2
  obtain ⟨hpin, hp⟩ := hprep
  have hsteady := h.gen.steady
  have hl : Db.Located s.world.issued s.jobs.db source.id call.repositoryId := by
    rcases hpc with rfl | rfl
    · exact hp
    · exact hp.1
  have hsame : active.id = source.id := hl.unique hsteady.indexes hsteady.current ha
  obtain ⟨_, _, -, hact'⟩ := Searches.source_eq ha
  refine Answers.lookup_succeeds hpin ?_ ⟨active, (Db.activeIndex_eq hact').1, hsame⟩ hpc hp
  rw [hexp, ← hact, hsame]

/-- The repository is there. -/
def Has (s : System) (repositoryId : Uuid) : Prop := ∃ r ∈ s.jobs.db.repositories, r.id = repositoryId

/-- What a state says about the generations of a later one. -/
structure GenerationsLast (env : Env) (s s' : System) : Prop where
  /-- Completed rows and what was published with them are there as long as their repository is. -/
  rows : ∀ repositoryId, s.Has repositoryId → s'.Has repositoryId → Db.Lasting repositoryId s.jobs.db s'.jobs.db
  activeIndex : ∀ repositoryId, s.Has repositoryId → s'.Has repositoryId → ∀ importId,
    (s.jobs.db.activeIndex repositoryId importId).isSome → (s'.jobs.db.activeIndex repositoryId importId).isSome
  activeSearch : ∀ repositoryId, s.Has repositoryId → s'.Has repositoryId → ∀ sourceId mode,
    (s.jobs.db.activeSearch repositoryId sourceId mode).isSome →
      (s'.jobs.db.activeSearch repositoryId sourceId mode).isSome
  newestIndex : ∀ repositoryId importId,
    Db.IsNewest s'.jobs.db.indexes (Db.IndexOf repositoryId importId) (s'.jobs.db.activeIndex repositoryId importId)
  newestSearch : ∀ repositoryId sourceId mode,
    Db.IsNewest s'.jobs.db.searches (Db.SearchOf repositoryId sourceId mode)
      (s'.jobs.db.activeSearch repositoryId sourceId mode)
  /-- Rows are in the order of their creation. -/
  indexOrder : s'.jobs.db.indexes.Pairwise (·.createdAt ≤ ·.createdAt)
  searchOrder : s'.jobs.db.searches.Pairwise (·.createdAt ≤ ·.createdAt)
  /-- A search finds what the state reports. -/
  refused : ∀ now c query e, Searches.state s'.jobs.db c.userId c.repositoryId = .error e →
    Answers.lookup env now c query s'.jobs.db s'.chat.tables = .raised (.app e)
  reported : ∀ now c query state, Searches.state s'.jobs.db c.userId c.repositoryId = .ok state →
    ∃ source, Searches.source s'.jobs.db c.userId c.repositoryId = .ok source ∧
      Answers.lookup env now c query s'.jobs.db s'.chat.tables = Answers.found query source (state.index c.request.mode)
  workers : ∀ r ∈ s'.chat.tables.runs, Found env s' r

/-- Completed generations last in every run. -/
theorem generations_last (env : Env) (acts more : List Action) :
    GenerationsLast env (run env acts) ((machine env).exec (run env acts) more) := by
  have hready : ReadyInv env ((machine env).exec (run env acts) more) :=
    Machine.exec_always readyInv_step (readyInv env acts) more
  have hlast : ∀ repositoryId, (run env acts).Has repositoryId →
    ((machine env).exec (run env acts) more).Has repositoryId →
      Db.Lasting repositoryId (run env acts).jobs.db ((machine env).exec (run env acts) more).jobs.db := by
    rintro repositoryId ⟨r, hr, hid⟩ ⟨r', hr', rfl⟩
    have hissued := (readyInv env acts).gen.chat.owners.ids r hr
    exact (lasts acts more).lasting r' hr' (hid ▸ hissued)
  exact {
    rows := hlast
    activeIndex := fun repositoryId h h' importId ha => (hlast repositoryId h h').activeIndex ha
    activeSearch := fun repositoryId h h' sourceId mode ha => (hlast repositoryId h h').activeSearch ha
    newestIndex := fun repositoryId importId => Db.activeIndex_isNewest _ repositoryId importId
    newestSearch := fun repositoryId sourceId mode => Db.activeSearch_isNewest _ repositoryId sourceId mode
    indexOrder := hready.gen.generations.indexOrder
    searchOrder := hready.gen.generations.searchOrder
    refused := fun now c query e h => Answers.lookup_error h
    reported := fun now c query state h => Answers.lookup_ok h
    workers := fun r hr => hready.found hr }

/-! ### Rows that change -/

/-- Completed rows that are still there agree up to `f`. -/
def IndexesKept (f : RepositoryIndex → RepositoryIndex) (s s' : System) : Prop :=
  ∀ x ∈ s.jobs.db.indexes, x.status = .completed → s'.Has x.repositoryId → ∃ x' ∈ s'.jobs.db.indexes, f x' = f x

def SearchesKept (f : SearchIndex → SearchIndex) (s s' : System) : Prop :=
  ∀ x ∈ s.jobs.db.searches, x.status = .completed → s'.Has x.repositoryId → ∃ x' ∈ s'.jobs.db.searches, f x' = f x

instance (s : System) (repositoryId : Uuid) : Decidable (s.Has repositoryId) :=
  inferInstanceAs (Decidable (∃ r ∈ s.jobs.db.repositories, r.id = repositoryId))

instance (f : RepositoryIndex → RepositoryIndex) (s s' : System) : Decidable (IndexesKept f s s') :=
  inferInstanceAs (Decidable (∀ x ∈ s.jobs.db.indexes, x.status = .completed → s'.Has x.repositoryId →
    ∃ x' ∈ s'.jobs.db.indexes, f x' = f x))

instance (f : SearchIndex → SearchIndex) (s s' : System) : Decidable (SearchesKept f s s') :=
  inferInstanceAs (Decidable (∀ x ∈ s.jobs.db.searches, x.status = .completed → s'.Has x.repositoryId →
    ∃ x' ∈ s'.jobs.db.searches, f x' = f x))

/-- After an import, its index and a keyword search, each published while a dispatcher has its id. -/
def published : List Action :=
  importing ++ ([.startIndex 0 1 none 5, .indexCycle .expire, .indexCycle (.select 0), .claimIndex 5 6,
    .indexStep 0 (.go []), .indexStep 0 (.go []), .indexStep 0 (.go []), .indexStep 0 (.go []), .indexStep 0 (.go [7]),
    .startSearch offline 0 1 .keyword none 8, .searchCycle .expire, .searchCycle (.select 0), .claimSearch 8 9 none,
    .searchStep 0 .go, .searchStep 0 .go, .searchStep 0 .go, .searchStep 0 .go, .searchStep 0 .go, .searchStep 0 .go] :
      List Jobs.Action).map .jobs

/-- The dispatchers write down what they sent; the owner prepares semantic search. -/
def replaced : List Action :=
  ([.indexCycle (.publish 0 true), .searchCycle (.publish 0 true),
    .startSearch { offline with embeddingsEnabled := true } 0 1 .hybrid none 10] : List Jobs.Action).map .jobs

/-- A completed row loses its place as the current one, and a dispatcher may still write to it. -/
theorem completed_rows_written :
    ¬ IndexesKept id (run characters published) ((machine characters).exec (run characters published) replaced) ∧
      ¬ SearchesKept (fun x => { x with lastDispatchedAt := none }) (run characters published)
        ((machine characters).exec (run characters published) replaced) ∧
      ¬ SearchesKept (fun x => { x with isCurrent := false }) (run characters published)
        ((machine characters).exec (run characters published) replaced) := by
  decide +kernel

end System
end RepoPilot
