import RepoPilot.Transactions

/-! # Every action of the job system changes each job table by moves

For each of the three tables: whatever the action, the table evolves by `Job.Changes`. So the results
of `Lifecycle` hold of imports, indexes and searches alike. -/

namespace RepoPilot

namespace Db
variable {db : Db} {repositoryId sourceId userId : Uuid} {mode : Mode}

theorem mem_of_newest {π : Type} {rows : List (Job π)} {r : Job π} (h : newest rows = some r) : r ∈ rows := by
  have := List.mem_of_mem_head? h
  rwa [List.mem_insertionSort] at this

theorem newest_eq_none {π : Type} {rows : List (Job π)} (h : newest rows = none) : rows = [] := by
  have := congrArg List.length (List.head?_eq_none_iff.1 h)
  rw [List.length_insertionSort] at this
  exact List.length_eq_zero_iff.1 this

theorem latestIndex_eq {l : RepositoryIndex} (h : db.latestIndex repositoryId sourceId = some l) :
    l ∈ db.indexes ∧ l.repositoryId = repositoryId ∧ l.data.importJobId = sourceId ∧ l.isCurrent = true := by
  have := List.find?_some h
  exact ⟨List.mem_of_find?_eq_some h, by simpa using this⟩

theorem activeIndex_eq {i : RepositoryIndex} (h : db.activeIndex repositoryId sourceId = some i) :
    i ∈ db.indexes ∧ i.repositoryId = repositoryId ∧ i.data.importJobId = sourceId ∧ i.status = .completed := by
  have := List.mem_filter.1 (mem_of_newest h)
  exact ⟨this.1, by simpa using this.2⟩

theorem latestSearch_eq {l : SearchIndex} (h : db.latestSearch repositoryId = some l) :
    l ∈ db.searches ∧ l.repositoryId = repositoryId ∧ l.isCurrent = true := by
  have := List.find?_some h
  exact ⟨List.mem_of_find?_eq_some h, by simpa using this⟩

theorem activeSearch_eq {s : SearchIndex} (h : db.activeSearch repositoryId sourceId mode = some s) :
    s ∈ db.searches ∧ s.repositoryId = repositoryId ∧ s.data.sourceIndexId = sourceId ∧
      s.status = .completed ∧ s.data.mode = mode ∧ s.data.pipelineVersion = searchVersion := by
  have := List.mem_filter.1 (mem_of_newest h)
  exact ⟨this.1, by simpa using this.2⟩

theorem owned_eq {p : Repository × ImportJob} (h : db.owned userId repositoryId = .ok p) :
    p.1 ∈ db.repositories ∧ p.1.id = repositoryId ∧ p.1.userId = userId ∧ p.2 ∈ db.imports ∧
      p.2.repositoryId = repositoryId ∧ p.2.isCurrent = true := by
  unfold owned at h
  split at h
  · cases h
  · rename_i r hr
    split at h
    · cases h
    · rename_i j hj
      cases h
      have h1 := List.find?_some hr
      have h2 := List.find?_some hj
      simp only [decide_eq_true_eq] at h1 h2
      exact ⟨List.mem_of_find?_eq_some hr, h1.1, h1.2, List.mem_of_find?_eq_some hj, h2.1.trans h1.1, h2.2⟩

theorem owned_error {e : AppError} (h : db.owned userId repositoryId = .error e) : e = notFound := by
  unfold owned at h
  split at h
  · exact (Except.error.inj h).symm
  · split at h
    · exact (Except.error.inj h).symm
    · cases h

end Db

namespace Cycle
variable {π : Type} [JobData π] {now : Time} {input : Input} {t : List (Job π)} {cycles : List Cycle}

theorem step_changes : Job.Changes ⟨now, [], [], none, false⟩ t (step now input t cycles).1 := by
  unfold step
  split
  · exact .update fun r _ hw => Job.moves_failedWith _ _ (.inr hw.1)
  · split <;> exact .refl
  · split
    · dsimp only
      split
      · exact .update fun r _ _ => .kept ⟨rfl, rfl, rfl⟩ ⟨rfl, rfl, rfl, rfl⟩ rfl (.inl rfl)
      · exact .refl
    · exact .refl

end Cycle

namespace Jobs

/-- The profile of a search index is that of its mode. -/
def Profiled (t : List SearchIndex) : Prop := ∀ s ∈ t, s.data.providerProfile = Searches.profileOf s.data.mode

section Requests
variable {now : Time} {userId repositoryId jobId : Uuid} {limit : Option AppError} {db : Db} {w : World}
  {a : Actor}

/-- Superseding the latest job, when it is over, and inserting a new one. -/
theorem changes_supersede {π : Type} [JobData π] {t t' : List (Job π)} {data : π} {latest : Option (Job π)}
    (hg : Job.Good w t) (hid : jobId ∈ a.inserts) (hnew : jobId ∉ w.issued) (hd : JobData.New data)
    (hmem : ∀ l ∈ latest, l ∈ t)
    (hterm : ∀ l ∈ latest, l.status.Terminal)
    (h : Job.insert (Table.update (fun r => ∃ l ∈ latest, r.id = l.id) Job.superseded t)
      (Job.new jobId repositoryId now data) = some t') : Job.Changes a t t' := by
  have hsup : Job.Changes a t (Table.update (fun r => ∃ l ∈ latest, r.id = l.id) Job.superseded t) := by
    refine .update fun r hr ⟨l, hl, he⟩ => Job.moves_superseded ?_
    rw [hg.keyed.eq hr (hmem l hl) he]
    exact hterm l hl
  refine hsup.trans (Job.Changes.insert hid (fun q hq he => ?_) hd h)
  obtain ⟨r, hr, rfl⟩ := Table.mem_update.1 hq
  refine hnew (he ▸ ?_)
  split
  · exact hg.ids r hr
  · exact hg.ids r hr

end Requests
/-! ### Frames -/

/-- The part of the job system an action works on. -/
inductive Kind
  | imports | indexes | searches | removal
  deriving DecidableEq

def Action.kind : Action → Kind
  | .createImport .. | .retryImport .. | .cancelImport .. | .claimImport .. | .importStep .. | .importCycle .. =>
    .imports
  | .startIndex .. | .cancelIndex .. | .claimIndex .. | .indexStep .. | .indexCycle .. => .indexes
  | .startSearch .. | .cancelSearch .. | .claimSearch .. | .searchStep .. | .searchCycle .. => .searches
  | .removeRepository .. => .removal

section Frames
variable {env : Env} {now : Time} {a : Action} {s : Jobs}

theorem committed_cases {α : Type} (db : Db) (result : Except Raised (Db × α)) :
    committed db result = db ∨ ∃ p, result = .ok p ∧ committed db result = p.1 := by
  cases result with
  | error e => exact .inl rfl
  | ok p => exact .inr ⟨p, rfl, rfl⟩

theorem committed_map_cases (db : Db) (result : Except Raised Db) :
    committed db (result.map (·, ())) = db ∨
      ∃ db', result = .ok db' ∧ committed db (result.map (·, ())) = db' := by
  cases result with
  | error e => exact .inl rfl
  | ok db' => exact .inr ⟨db', rfl, rfl⟩

/-- Import actions leave the tables of indexes and searches alone. -/
theorem frame_imports (env : Env) (now : Time) (s : Jobs) (h : a.kind = .imports) :
    (step env now a s).db.indexes = s.db.indexes ∧ (step env now a s).db.symbols = s.db.symbols ∧
      (step env now a s).db.chunks = s.db.chunks ∧ (step env now a s).db.searches = s.db.searches ∧
      (step env now a s).db.documents = s.db.documents := by
  cases a <;> try cases h
  case createImport userId source limit repositoryId jobId =>
    rcases committed_cases s.db (Imports.create now userId source limit repositoryId jobId s.db) with
      h | ⟨p, hp, h⟩
    · simp only [step, h, and_self]
    · obtain ⟨imports, he, -⟩ := Imports.create_eq hp
      simp only [step, h, he, and_self]
  case retryImport userId repositoryId limit jobId =>
    rcases committed_cases s.db (Imports.retry now userId repositoryId limit jobId s.db) with h | ⟨p, hp, h⟩
    · simp only [step, h, and_self]
    · obtain ⟨imports, -, -, he, -⟩ := Imports.retry_eq hp
      simp only [step, h, he, and_self]
  case cancelImport userId repositoryId =>
    rcases committed_map_cases s.db (Imports.cancel now userId repositoryId s.db) with h | ⟨db', hp, h⟩
    · simp only [step, h, and_self]
    · obtain ⟨-, job, -, he⟩ := Imports.cancel_eq hp
      simp only [step, h, he, and_self]
  case claimImport jobId token =>
    simp only [step, claimImport]
    split <;> simp only [and_self]
  case importStep i input =>
    simp only [step, importStep]
    split
    · rename_i w hw
      obtain ⟨_, _, _, he, -⟩ := (Imports.step_effect now w.claim input w.pc s.db).frame
      simp only [he, and_self]
    · simp only [and_self]
  case importCycle input => simp only [step, and_self]

/-- Index actions leave repositories, imports and searches alone. -/
theorem frame_indexes (env : Env) (now : Time) (s : Jobs) (h : a.kind = .indexes) :
    (step env now a s).db.repositories = s.db.repositories ∧ (step env now a s).db.imports = s.db.imports ∧
      (step env now a s).db.files = s.db.files ∧ (step env now a s).db.searches = s.db.searches ∧
      (step env now a s).db.documents = s.db.documents := by
  cases a <;> try cases h
  case startIndex userId repositoryId limit jobId =>
    rcases committed_cases s.db (Indexes.start now userId repositoryId limit jobId s.db) with h | ⟨p, hp, h⟩
    · simp only [step, h, and_self]
    · rcases Indexes.start_eq hp with he | ⟨_, _, _, _, -, -, -, -, -, he⟩ <;>
        simp only [step, h, he, and_self]
  case cancelIndex userId repositoryId =>
    rcases committed_map_cases s.db (Indexes.cancel now userId repositoryId s.db) with h | ⟨db', hp, h⟩
    · simp only [step, h, and_self]
    · obtain ⟨-, source, -, he⟩ := Indexes.cancel_eq hp
      simp only [step, h, he, and_self]
  case claimIndex jobId token =>
    simp only [step, claimIndex]
    split <;> simp only [and_self]
  case indexStep i input =>
    simp only [step, indexStep]
    split
    · rename_i w hw
      obtain ⟨_, _, _, he⟩ := (Indexes.step_effect env now w.claim input w.pc s.db).frame
      simp only [he, and_self]
    · simp only [and_self]
  case indexCycle input => simp only [step, and_self]

/-- Search actions leave everything but search indexes and documents alone. -/
theorem frame_searches (env : Env) (now : Time) (s : Jobs) (h : a.kind = .searches) :
    (step env now a s).db.repositories = s.db.repositories ∧ (step env now a s).db.imports = s.db.imports ∧
      (step env now a s).db.files = s.db.files ∧ (step env now a s).db.indexes = s.db.indexes ∧
      (step env now a s).db.symbols = s.db.symbols ∧ (step env now a s).db.chunks = s.db.chunks := by
  cases a <;> try cases h
  case startSearch settings userId repositoryId mode limit jobId =>
    rcases committed_cases s.db (Searches.start now settings userId repositoryId mode limit jobId s.db) with
      h | ⟨p, hp, h⟩
    · simp only [step, h, and_self]
    · rcases Searches.start_eq hp with he | ⟨_, -, -, -, ⟨_, -, -, he⟩ | ⟨_, -, he⟩⟩ <;>
        simp only [step, h, he, and_self]
  case cancelSearch userId repositoryId =>
    rcases committed_map_cases s.db (Searches.cancel now userId repositoryId s.db) with h | ⟨db', hp, h⟩
    · simp only [step, h, and_self]
    · simp only [step, h, (Searches.cancel_eq hp).2, and_self]
  case claimSearch jobId token provider =>
    simp only [step, claimSearch]
    split <;> simp only [and_self]
  case searchStep i input =>
    simp only [step, searchStep]
    split
    · rename_i w hw
      obtain ⟨_, _, he⟩ := (Searches.step_effect env now w.claim w.provider input w.pc s.db).frame
      simp only [he, and_self]
    · simp only [and_self]
  case searchCycle input => simp only [step, and_self]

theorem removeRepository_cases (db : Db) (userId repositoryId : Uuid) :
    db.removeRepository userId repositoryId = db ∨
      db.removeRepository userId repositoryId = db.deleteRepository repositoryId := by
  unfold Db.removeRepository
  split
  · exact .inr rfl
  · exact .inl rfl

end Frames

/-! ### The three job tables -/

/-- The lease token under which an action writes imports, indexes and search indexes. -/
def tokens (s : Jobs) : Action → Option Uuid
  | .importStep i _ => (s.importWorkers[i]?).map (·.claim.leaseToken)
  | .indexStep i _ => (s.indexWorkers[i]?).map (·.claim.leaseToken)
  | .searchStep i _ => (s.searchWorkers[i]?).map (·.claim.leaseToken)
  | _ => none

/-- The lease tokens an action grants. -/
def Action.grants : Action → List Uuid
  | .claimImport _ token | .claimIndex _ token | .claimSearch _ token _ => [token]
  | _ => []

/-- The jobs an action inserts. -/
def Action.inserts : Action → List Uuid
  | .createImport _ _ _ _ jobId | .retryImport _ _ _ jobId | .startIndex _ _ _ jobId
  | .startSearch _ _ _ _ _ jobId => [jobId]
  | _ => []

def Action.deletes : Action → Bool
  | .removeRepository .. => true
  | _ => false

/-- The actor of an action. -/
def actor (now : Time) (a : Action) (s : Jobs) : Actor := ⟨now, a.grants, a.inserts, s.tokens a, a.deletes⟩

theorem fresh_subset (now : Time) {a : Action} (s : Jobs) : ∀ i ∈ (actor now a s).fresh, i ∈ a.ids := by
  intro i hi
  cases a <;> simp_all [actor, Actor.fresh, Action.grants, Action.inserts, Action.ids]

section Changes
variable {env : Env} {now : Time} {a : Action} {s : Jobs} {w : World}

theorem imports_changes (env : Env) (now : Time) (hg : Job.Good w s.db.imports)
    (hc : ∀ k ∈ s.importWorkers, Job.Granted w s.db.imports k.claim) (hf : ∀ i ∈ a.ids, i ∉ w.issued) :
    Job.Changes (actor now a s) s.db.imports (step env now a s).db.imports := by
  cases hk : a.kind with
  | indexes => rw [(frame_indexes _ _ _ hk).2.1]; exact .refl
  | searches => rw [(frame_searches _ _ _ hk).2.1]; exact .refl
  | removal =>
    cases a <;> try cases hk
    case removal.removeRepository.refl userId repositoryId =>
      rcases removeRepository_cases s.db userId repositoryId with h | h <;> simp only [step, h]
      · exact .refl
      · exact .delete _ rfl
  | imports =>
    cases a <;> try cases hk
    case imports.createImport.refl userId source limit repositoryId jobId =>
      rcases committed_cases s.db (Imports.create now userId source limit repositoryId jobId s.db) with
        h | ⟨p, hp, h⟩ <;> simp only [step, h]
      · exact .refl
      · obtain ⟨imports, he, -, -, hi⟩ := Imports.create_eq hp
        rw [he]
        refine Job.Changes.insert (by simp [actor, Action.inserts]) (fun q hq heq => ?_) rfl hi
        exact hf jobId (by simp [Action.ids]) (heq ▸ hg.ids q hq)
    case imports.retryImport.refl userId repositoryId limit jobId =>
      rcases committed_cases s.db (Imports.retry now userId repositoryId limit jobId s.db) with
        h | ⟨p, hp, h⟩ <;> simp only [step, h]
      · exact .refl
      · obtain ⟨imports, old, repository, he, -, hi⟩ := Imports.retry_eq hp
        rw [he]
        have hsup : Job.Changes (actor now (.retryImport userId repositoryId limit jobId) s) s.db.imports
            (Table.update (Imports.RetryWhere old.id) Job.superseded s.db.imports) :=
          .update fun r _ hr => Job.moves_superseded (.inr hr.2.2)
        refine hsup.trans (Job.Changes.insert (by simp [actor, Action.inserts]) (fun q hq heq => ?_) rfl hi)
        obtain ⟨r, hr, rfl⟩ := Table.mem_update.1 hq
        refine hf jobId (by simp [Action.ids]) (heq ▸ ?_)
        split <;> exact hg.ids r hr
    case imports.cancelImport.refl userId repositoryId =>
      rcases committed_map_cases s.db (Imports.cancel now userId repositoryId s.db) with h | ⟨db', hp, h⟩ <;>
        simp only [step, h]
      · exact .refl
      · obtain ⟨-, job, -, he⟩ := Imports.cancel_eq hp
        rw [he]
        exact .update fun r _ hr => Job.moves_cancelled hr.2
    case imports.claimImport.refl jobId token =>
      simp only [step, claimImport]
      split
      · exact Job.Changes.claimJob ‹_›
      · exact .refl
    case imports.importStep.refl i input =>
      simp only [step, importStep]
      split
      · rename_i k hk
        have := (Imports.step_effect now k.claim input k.pc s.db).changes
          (hc k (Table.mem_of_getElem? hk))
        simpa only [actor, tokens, Action.grants, Action.inserts, Action.deletes, hk, Option.map_some] using this
      · exact .refl
    case imports.importCycle.refl input => exact Cycle.step_changes

theorem indexes_changes (env : Env) (now : Time) (hg : Job.Good w s.db.indexes) (hf : ∀ i ∈ a.ids, i ∉ w.issued) :
    Job.Changes (actor now a s) s.db.indexes (step env now a s).db.indexes := by
  cases hk : a.kind with
  | imports => rw [(frame_imports _ _ _ hk).1]; exact .refl
  | searches => rw [(frame_searches _ _ _ hk).2.2.2.1]; exact .refl
  | removal =>
    cases a <;> try cases hk
    case removal.removeRepository.refl userId repositoryId =>
      rcases removeRepository_cases s.db userId repositoryId with h | h <;> simp only [step, h]
      · exact .refl
      · exact .delete _ rfl
  | indexes =>
    cases a <;> try cases hk
    case indexes.startIndex.refl userId repositoryId limit jobId =>
      rcases committed_cases s.db (Indexes.start now userId repositoryId limit jobId s.db) with
        h | ⟨p, hp, h⟩ <;> simp only [step, h]
      · exact .refl
      · rcases Indexes.start_eq hp with he | ⟨repository, imported, sha, indexes, ho, hst, hsha, hterm, hi, he⟩ <;>
          rw [he]
        · exact .refl
        · exact changes_supersede hg (by simp [actor, Action.inserts]) (hf jobId (by simp [Action.ids]))
            ⟨rfl, rfl, rfl⟩ (fun l hl => (Db.latestIndex_eq hl).1) (fun l hl => (hterm l hl).1) hi
    case indexes.cancelIndex.refl userId repositoryId =>
      rcases committed_map_cases s.db (Indexes.cancel now userId repositoryId s.db) with h | ⟨db', hp, h⟩ <;>
        simp only [step, h]
      · exact .refl
      · obtain ⟨-, source, -, he⟩ := Indexes.cancel_eq hp
        rw [he]
        exact .update fun r _ hr => Job.moves_cancelled hr.2.2.2
    case indexes.claimIndex.refl jobId token =>
      simp only [step, claimIndex]
      split
      · exact Job.Changes.claimJob ‹_›
      · exact .refl
    case indexes.indexStep.refl i input =>
      simp only [step, indexStep]
      split
      · rename_i k hk
        have := (Indexes.step_effect env now k.claim input k.pc s.db).changes
        simpa only [actor, tokens, Action.grants, Action.inserts, Action.deletes, hk, Option.map_some] using this
      · exact .refl
    case indexes.indexCycle.refl input => exact Cycle.step_changes

/-- A request resumes the latest job only when nothing completed serves it, so never a completed job. -/
theorem latest_not_completed {repositoryId : Uuid} {index : RepositoryIndex} {mode : Mode} {l : SearchIndex}
    (hp : Profiled s.db.searches) (hl : s.db.latestSearch repositoryId = some l) (hm : Searches.Matches index.id mode l)
    (hex : (s.db.activeSearch repositoryId index.id mode).filter
      (·.data.providerProfile = Searches.profileOf mode) = none) : l.status ≠ .completed := by
  intro hc
  obtain ⟨hmem, hrepo, -⟩ := Db.latestSearch_eq hl
  obtain ⟨hsrc, hmode, -, hv⟩ := hm
  cases ha : s.db.activeSearch repositoryId index.id mode with
  | none =>
    have hnil := Db.newest_eq_none ha
    have : l ∈ ([] : List SearchIndex) := by
      rw [← hnil]
      exact List.mem_filter.2 ⟨hmem, by simp [hrepo, hsrc, hc, hmode, hv]⟩
    cases this
  | some e =>
    obtain ⟨he, -, -, -, hemode, -⟩ := Db.activeSearch_eq ha
    rw [ha] at hex
    have hprof := hp e he
    rw [hemode] at hprof
    simp [Option.filter, hprof] at hex

theorem searches_changes (env : Env) (now : Time) (hg : Job.Good w s.db.searches) (hp : Profiled s.db.searches)
    (hf : ∀ i ∈ a.ids, i ∉ w.issued) :
    Job.Changes (actor now a s) s.db.searches (step env now a s).db.searches := by
  cases hk : a.kind with
  | imports => rw [(frame_imports _ _ _ hk).2.2.2.1]; exact .refl
  | indexes => rw [(frame_indexes _ _ _ hk).2.2.2.1]; exact .refl
  | removal =>
    cases a <;> try cases hk
    case removal.removeRepository.refl userId repositoryId =>
      rcases removeRepository_cases s.db userId repositoryId with h | h <;> simp only [step, h]
      · exact .refl
      · exact .delete _ rfl
  | searches =>
    cases a <;> try cases hk
    case searches.startSearch.refl settings userId repositoryId mode limit jobId =>
      rcases committed_cases s.db (Searches.start now settings userId repositoryId mode limit jobId s.db) with
        h | ⟨p, hp', h⟩ <;> simp only [step, h]
      · exact .refl
      · rcases Searches.start_eq hp' with he | ⟨index, -, hterm, hex, ⟨l, hl, hm, he⟩ | ⟨searches, hi, he⟩⟩ <;>
          rw [he]
        · exact .refl
        · obtain ⟨hmem, -, hcur⟩ := Db.latestSearch_eq hl
          have hnc := latest_not_completed hp hl hm hex
          refine .update fun r hr hid => ?_
          have : r = l := hg.keyed.eq hr hmem hid
          subst this
          refine .resumed ⟨rfl, rfl, rfl⟩ ?_ hcur hcur rfl rfl rfl rfl
            ⟨rfl, rfl, rfl, le_refl _, fun h => h.trans (le_max_left _ _)⟩
          rcases hterm r hl with h | h | h
          · exact absurd h hnc
          · exact .inl h
          · exact .inr h
        · exact changes_supersede hg (by simp [actor, Action.inserts]) (hf jobId (by simp [Action.ids]))
            ⟨rfl, rfl, rfl, rfl⟩ (fun l hl => (Db.latestSearch_eq hl).1) hterm hi
    case searches.cancelSearch.refl userId repositoryId =>
      rcases committed_map_cases s.db (Searches.cancel now userId repositoryId s.db) with h | ⟨db', hp, h⟩ <;>
        simp only [step, h]
      · exact .refl
      · rw [(Searches.cancel_eq hp).2]
        exact .update fun r _ hr => Job.moves_cancelled hr.2.2
    case searches.claimSearch.refl jobId token provider =>
      simp only [step, claimSearch]
      split
      · exact Job.Changes.claimJob ‹_›
      · exact .refl
    case searches.searchStep.refl i input =>
      simp only [step, searchStep]
      split
      · rename_i k hk
        have := (Searches.step_effect env now k.claim k.provider input k.pc s.db).changes
        simpa only [actor, tokens, Action.grants, Action.inserts, Action.deletes, hk, Option.map_some] using this
      · exact .refl
    case searches.searchCycle.refl input => exact Cycle.step_changes

end Changes

/-! ### The invariant -/

/-- What holds of the job tables and the claims of all workers in every reachable state. -/
structure Inv (w : World) (s : Jobs) : Prop where
  imports : Job.Good w s.db.imports
  indexes : Job.Good w s.db.indexes
  searches : Job.Good w s.db.searches
  importClaims : ∀ k ∈ s.importWorkers, Job.Granted w s.db.imports k.claim
  indexClaims : ∀ k ∈ s.indexWorkers, Job.Granted w s.db.indexes k.claim
  searchClaims : ∀ k ∈ s.searchWorkers, Job.Granted w s.db.searches k.claim
  profiled : Profiled s.db.searches

namespace Inv
variable {env : Env} {now : Time} {a : Action} {s : Jobs} {w w' : World}

theorem empty (w : World) : Inv w Jobs.empty := by
  refine ⟨Job.Good.nil, Job.Good.nil, Job.Good.nil, ?_, ?_, ?_, ?_⟩ <;> intro k hk <;> cases hk

theorem mono (h : Inv w s) (hw : ∀ i ∈ w.issued, i ∈ w'.issued) : Inv w' s :=
  ⟨h.imports.mono hw, h.indexes.mono hw, h.searches.mono hw, fun k hk => (h.importClaims k hk).mono hw,
    fun k hk => (h.indexClaims k hk).mono hw, fun k hk => (h.searchClaims k hk).mono hw, h.profiled⟩

theorem profiled_changes {a : Actor} {t t' : List SearchIndex} (h : Profiled t) (hc : Job.Changes a t t') :
    Profiled t' :=
  hc.all_data (P := fun d => d.providerProfile = Searches.profileOf d.mode) (fun _ hn => hn.1)
    (fun _ _ ⟨_, hmode, hprof, _⟩ hd => by rw [hprof, hmode]; exact hd) h

/-- A worker of the next state was there, was just granted its claim, or made this step. -/
theorem importWorkers_step {k : Imports.Worker} (hk : k ∈ (step env now a s).importWorkers) :
    k ∈ s.importWorkers ∨
      (∃ jobId token p, a = .claimImport jobId token ∧
        Job.claimJob now s.db.repositories jobId token s.db.imports = some p ∧ k = ⟨p.2, .resolve⟩ ∧
        (step env now a s).db.imports = p.1) ∨
      ∃ i input k₀, a = .importStep i input ∧ s.importWorkers[i]? = some k₀ ∧ k.claim = k₀.claim ∧
        Imports.Effect now k₀.claim input k₀.pc s.db k.pc (step env now a s).db := by
  cases a
  case claimImport jobId token =>
    simp only [step, claimImport] at hk ⊢
    split at hk
    · rename_i p hp
      rcases List.mem_append.1 hk with hk | hk
      · exact .inl hk
      · exact .inr (.inl ⟨jobId, token, p, rfl, hp, List.mem_singleton.1 hk, rfl⟩)
    · exact .inl hk
  case importStep i input =>
    simp only [step, importStep] at hk ⊢
    split at hk
    · rename_i k₀ hi
      rcases List.mem_or_eq_of_mem_set hk with hk | rfl
      · exact .inl hk
      · exact .inr (.inr ⟨i, input, k₀, rfl, hi, rfl, Imports.step_effect now k₀.claim input k₀.pc s.db⟩)
    · exact .inl hk
  case indexStep i input =>
    simp only [step, indexStep] at hk
    split at hk <;> exact .inl hk
  case claimIndex jobId token =>
    simp only [step, claimIndex] at hk
    split at hk <;> exact .inl hk
  case searchStep i input =>
    simp only [step, searchStep] at hk
    split at hk <;> exact .inl hk
  case claimSearch jobId token provider =>
    simp only [step, claimSearch] at hk
    split at hk <;> exact .inl hk
  all_goals exact .inl hk

theorem indexWorkers_step {k : Indexes.Worker} (hk : k ∈ (step env now a s).indexWorkers) :
    k ∈ s.indexWorkers ∨
      (∃ jobId token p, a = .claimIndex jobId token ∧
        Job.claimJob now s.db.repositories jobId token s.db.indexes = some p ∧ k = ⟨p.2, .load⟩ ∧
        (step env now a s).db.indexes = p.1) ∨
      ∃ i input k₀, a = .indexStep i input ∧ s.indexWorkers[i]? = some k₀ ∧ k.claim = k₀.claim ∧
        Indexes.Effect env now k₀.claim input k₀.pc s.db k.pc (step env now a s).db := by
  cases a
  case claimIndex jobId token =>
    simp only [step, claimIndex] at hk ⊢
    split at hk
    · rename_i p hp
      rcases List.mem_append.1 hk with hk | hk
      · exact .inl hk
      · exact .inr (.inl ⟨jobId, token, p, rfl, hp, List.mem_singleton.1 hk, rfl⟩)
    · exact .inl hk
  case indexStep i input =>
    simp only [step, indexStep] at hk ⊢
    split at hk
    · rename_i k₀ hi
      rcases List.mem_or_eq_of_mem_set hk with hk | rfl
      · exact .inl hk
      · exact .inr (.inr ⟨i, input, k₀, rfl, hi, rfl, Indexes.step_effect env now k₀.claim input k₀.pc s.db⟩)
    · exact .inl hk
  case importStep i input =>
    simp only [step, importStep] at hk
    split at hk <;> exact .inl hk
  case claimImport jobId token =>
    simp only [step, claimImport] at hk
    split at hk <;> exact .inl hk
  case searchStep i input =>
    simp only [step, searchStep] at hk
    split at hk <;> exact .inl hk
  case claimSearch jobId token provider =>
    simp only [step, claimSearch] at hk
    split at hk <;> exact .inl hk
  all_goals exact .inl hk

theorem searchWorkers_step {k : Searches.Worker} (hk : k ∈ (step env now a s).searchWorkers) :
    k ∈ s.searchWorkers ∨
      (∃ jobId token provider p, a = .claimSearch jobId token provider ∧
        Job.claimJob now s.db.repositories jobId token s.db.searches = some p ∧ k = ⟨p.2, provider, .load⟩ ∧
        (step env now a s).db.searches = p.1) ∨
      ∃ i input k₀, a = .searchStep i input ∧ s.searchWorkers[i]? = some k₀ ∧ k.claim = k₀.claim ∧
        k.provider = k₀.provider ∧
        Searches.Effect env now k₀.claim k₀.provider input k₀.pc s.db k.pc (step env now a s).db := by
  cases a
  case claimSearch jobId token provider =>
    simp only [step, claimSearch] at hk ⊢
    split at hk
    · rename_i p hp
      rcases List.mem_append.1 hk with hk | hk
      · exact .inl hk
      · exact .inr (.inl ⟨jobId, token, provider, p, rfl, hp, List.mem_singleton.1 hk, rfl⟩)
    · exact .inl hk
  case searchStep i input =>
    simp only [step, searchStep] at hk ⊢
    split at hk
    · rename_i k₀ hi
      rcases List.mem_or_eq_of_mem_set hk with hk | rfl
      · exact .inl hk
      · exact .inr (.inr ⟨i, input, k₀, rfl, hi, rfl, rfl,
          Searches.step_effect env now k₀.claim k₀.provider input k₀.pc s.db⟩)
    · exact .inl hk
  case importStep i input =>
    simp only [step, importStep] at hk
    split at hk <;> exact .inl hk
  case claimImport jobId token =>
    simp only [step, claimImport] at hk
    split at hk <;> exact .inl hk
  case indexStep i input =>
    simp only [step, indexStep] at hk
    split at hk <;> exact .inl hk
  case claimIndex jobId token =>
    simp only [step, claimIndex] at hk
    split at hk <;> exact .inl hk
  all_goals exact .inl hk

/-- Every action keeps the invariant. -/
theorem step (h : Inv w s) (hf : ∀ i ∈ a.ids, i ∉ w.issued) :
    Inv ⟨w.clock, w.issued ++ a.ids⟩ (Jobs.step env now a s) := by
  have hw : ∀ i ∈ w.issued, i ∈ w.issued ++ a.ids := fun i hi => List.mem_append_left _ hi
  have hnew : ∀ i ∈ a.ids, i ∈ w.issued ++ a.ids := fun i hi => List.mem_append_right _ hi
  have hfresh : ∀ i ∈ (actor now a s).fresh, i ∈ w.issued ++ a.ids := fun i hi => hnew i (fresh_subset _ _ i hi)
  have hf' : ∀ i ∈ (actor now a s).fresh, i ∉ w.issued := fun i hi => hf i (fresh_subset _ _ i hi)
  have hm : Inv ⟨w.clock, w.issued ++ a.ids⟩ s := h.mono hw
  have hi : Job.Changes (actor now a s) s.db.imports (Jobs.step env now a s).db.imports :=
    imports_changes _ _ h.imports h.importClaims hf
  have hx : Job.Changes (actor now a s) s.db.indexes (Jobs.step env now a s).db.indexes :=
    indexes_changes _ _ h.indexes hf
  have hs : Job.Changes (actor now a s) s.db.searches (Jobs.step env now a s).db.searches :=
    searches_changes _ _ h.searches h.profiled hf
  constructor
  · exact hm.imports.changes hfresh hi
  · exact hm.indexes.changes hfresh hx
  · exact hm.searches.changes hfresh hs
  · intro k hk
    rcases importWorkers_step hk with hk | ⟨jobId, token, p, rfl, hp, rfl, he⟩ | ⟨i, input, k₀, -, hk₀, he, -⟩
    · exact ((h.importClaims k hk).changes hf' hi).mono hw
    · rw [he]
      exact Job.Granted.claimJob h.imports (hf token (by simp [Action.ids])) hp
        (hnew token (by simp [Action.ids])) hw
    · rw [he]
      exact ((h.importClaims k₀ (Table.mem_of_getElem? hk₀)).changes hf' hi).mono hw
  · intro k hk
    rcases indexWorkers_step hk with hk | ⟨jobId, token, p, rfl, hp, rfl, he⟩ | ⟨i, input, k₀, -, hk₀, he, -⟩
    · exact ((h.indexClaims k hk).changes hf' hx).mono hw
    · rw [he]
      exact Job.Granted.claimJob h.indexes (hf token (by simp [Action.ids])) hp
        (hnew token (by simp [Action.ids])) hw
    · rw [he]
      exact ((h.indexClaims k₀ (Table.mem_of_getElem? hk₀)).changes hf' hx).mono hw
  · intro k hk
    rcases searchWorkers_step hk with hk | ⟨jobId, token, provider, p, rfl, hp, rfl, he⟩ | ⟨i, input, k₀, -, hk₀, he, -⟩
    · exact ((h.searchClaims k hk).changes hf' hs).mono hw
    · rw [he]
      exact Job.Granted.claimJob h.searches (hf token (by simp [Action.ids])) hp
        (hnew token (by simp [Action.ids])) hw
    · rw [he]
      exact ((h.searchClaims k₀ (Table.mem_of_getElem? hk₀)).changes hf' hs).mono hw
  · exact profiled_changes h.profiled hs

end Inv
end Jobs
end RepoPilot
