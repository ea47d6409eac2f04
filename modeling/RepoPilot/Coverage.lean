import RepoPilot.Contents
import RepoPilot.Budget

/-! # What search preparation stores

The documents of a search index are distinct chunks of its source index, and its counters are theirs.
A worker that holds its lease knows what is missing: its pending chunks and the stored documents
together are all chunks of the source (`Covers`). So nothing is pending when it completes the job. -/

namespace RepoPilot

namespace Db

/-- The ids of the chunks of an index. -/
def chunkIds (db : Db) (sourceIndexId : Uuid) : List Uuid := (db.chunks.filter (·.indexId = sourceIndexId)).map (·.id)

/-- When every chunk has its file, the join loses none. -/
theorem map_placed {db : Db} {sourceIndexId : Uuid}
    (h : ∀ c ∈ db.chunks, c.indexId = sourceIndexId → ∃ f ∈ db.files, f.id = c.fileId) :
    (db.placed sourceIndexId).map (fun p => p.1.id) = db.chunkIds sourceIndexId := by
  unfold placed chunkIds
  rw [List.map_filterMap, ← List.filterMap_eq_map]
  refine List.filterMap_congr fun c hc => ?_
  obtain ⟨hc, hci⟩ := List.mem_filter.1 hc
  obtain ⟨f, hf, hfc⟩ := h c hc (of_decide_eq_true hci)
  cases hfind : db.files.find? (·.id = c.fileId) with
  | none => exact absurd (List.find?_eq_none.1 hfind f hf) (by simpa using hfc)
  | some g => rfl

theorem sourceChunks_ids {db : Db} {sourceIndexId : Uuid}
    (h : ∀ c ∈ db.chunks, c.indexId = sourceIndexId → ∃ f ∈ db.files, f.id = c.fileId) :
    ((db.sourceChunks sourceIndexId none).map (·.id)).Perm (db.chunkIds sourceIndexId) := by
  rw [← map_placed h]
  unfold sourceChunks
  rw [List.map_map]
  have hall : ((db.placed sourceIndexId).filter fun p => (none : Option (List Uuid)).all (p.1.id ∈ ·)) =
      db.placed sourceIndexId := List.filter_eq_self.2 fun _ _ => rfl
  rw [hall]
  exact (List.perm_insertionSort _ _).map _

end Db

namespace Searches

/-- The documents stored for a job. -/
def documentsOf (db : Db) (id : Uuid) : List SearchDocument := db.documents.filter (·.searchIndexId = id)

/-- The stored documents and the chunks `pending` are together all chunks of the source. -/
def Covers (db : Db) (r : SearchIndex) (pending : List Uuid) : Prop :=
  ((documentsOf db r.id).map (·.chunkId) ++ pending).Perm (db.chunkIds r.data.sourceIndexId)

/-- What the documents of a search index and its counters satisfy. -/
structure Stored (db : Db) (r : SearchIndex) : Prop where
  chunks : ∃ pending, Covers db r pending
  source : ∀ d ∈ documentsOf db r.id, d.sourceIndexId = r.data.sourceIndexId
  count : r.data.documentsStored = (documentsOf db r.id).length
  usage : r.data.inputTokens =
    if r.data.mode = .hybrid then ((documentsOf db r.id).map (·.tokenCount)).sum else 0
  embedding : ∀ d ∈ documentsOf db r.id, d.embedding.isSome ↔ r.data.mode = .hybrid
  complete : r.status = .completed → Covers db r []

/-- A worker's plan is that of its job. -/
def Plan.Of (plan : Plan) (r : SearchIndex) : Prop :=
  plan.mode = r.data.mode ∧ plan.sourceIndexId = r.data.sourceIndexId

/-- What a worker that holds the lease on `r` knows. -/
def Progress (env : Env) (db : Db) (r : SearchIndex) : Pc → Prop
  | .reporting plan pending | .batch plan pending => plan.Of r ∧ Covers db r (pending.map (·.id))
  | .reserve plan pending | .embed plan pending | .embedding plan pending =>
    plan.Of r ∧ plan.mode = .hybrid ∧ Covers db r (pending.map (·.id))
  | .checkpoint plan pending vectors usage =>
    plan.Of r ∧ Covers db r (pending.map (·.id)) ∧ vectors.length = (head pending).length ∧
      (∀ v ∈ vectors, v.isSome ↔ plan.mode = .hybrid) ∧ usage = plan.due env (head pending)
  | .complete _ => Covers db r []
  | _ => True

/-- A write that neither stores documents nor completes. -/
structure Quiet (r r' : SearchIndex) : Prop where
  id : r'.id = r.id
  repository : r'.repositoryId = r.repositoryId
  source : r'.data.sourceIndexId = r.data.sourceIndexId
  mode : r'.data.mode = r.data.mode
  count : r'.data.documentsStored = r.data.documentsStored
  usage : r'.data.inputTokens = r.data.inputTokens
  complete : r'.status = .completed → r.status = .completed

theorem Quiet.refl (r : SearchIndex) : Quiet r r := ⟨rfl, rfl, rfl, rfl, rfl, rfl, fun h => h⟩

/-- An update all of whose writes are quiet. -/
theorem quiet_update {p : SearchIndex → Prop} [DecidablePred p] {f : SearchIndex → SearchIndex}
    {t : List SearchIndex} (h : ∀ r ∈ t, p r → Quiet r (f r)) :
    ∀ r' ∈ Table.update p f t, ∃ r ∈ t, Quiet r r' := by
  intro r' hr'
  obtain ⟨r, hr, rfl⟩ := Table.mem_update.1 hr'
  split
  · exact ⟨r, hr, h r hr ‹_›⟩
  · exact ⟨r, hr, .refl r⟩

theorem quiet_fenced {now : Time} {c : Claim} {guard : SearchIndex → Prop} [DecidablePred guard]
    {f : SearchIndex → SearchIndex} {t t' : List SearchIndex} (h : ∀ r, r.status = .running → Quiet r (f r))
    (hf : Job.fencedIf now c guard f t = some t') : ∀ r' ∈ t', ∃ r ∈ t, Quiet r r' := by
  obtain ⟨-, ht⟩ := Job.fencedIf_isSome hf
  rw [ht]
  exact quiet_update fun r _ hp => h r hp.1.2.1

variable {env : Env} {db db' : Db} {r r' : SearchIndex}

theorem Stored.quiet (h : Stored db r) (hq : Quiet r r') (hd : documentsOf db' r.id = documentsOf db r.id)
    (hc : db'.chunkIds r.data.sourceIndexId = db.chunkIds r.data.sourceIndexId) : Stored db' r' := by
  have hcov : ∀ {pending}, Covers db r pending → Covers db' r' pending := by
    intro pending hcov
    unfold Covers at hcov ⊢
    rw [hq.id, hq.source, hd, hc]
    exact hcov
  refine ⟨h.chunks.imp fun _ => hcov, ?_, ?_, ?_, ?_, fun hs => hcov (h.complete (hq.complete hs))⟩
  · rw [hq.id, hd, hq.source]; exact h.source
  · rw [hq.id, hd, hq.count]; exact h.count
  · rw [hq.id, hd, hq.usage, hq.mode]; exact h.usage
  · rw [hq.id, hd, hq.mode]; exact h.embedding

theorem Progress.congr {pc : Pc} (h : Progress env db r pc) (hid : r'.id = r.id)
    (hs : r'.data.sourceIndexId = r.data.sourceIndexId) (hm : r'.data.mode = r.data.mode)
    (hd : documentsOf db' r.id = documentsOf db r.id)
    (hc : db'.chunkIds r.data.sourceIndexId = db.chunkIds r.data.sourceIndexId) : Progress env db' r' pc := by
  have hcov : ∀ {pending}, Covers db r pending → Covers db' r' pending := by
    intro pending hcov
    unfold Covers at hcov ⊢
    rw [hid, hs, hd, hc]
    exact hcov
  have hof : ∀ {plan : Plan}, plan.Of r → plan.Of r' := fun h => ⟨h.1.trans hm.symm, h.2.trans hs.symm⟩
  cases pc with
  | reporting plan pending => exact ⟨hof h.1, hcov h.2⟩
  | batch plan pending => exact ⟨hof h.1, hcov h.2⟩
  | reserve plan pending => exact ⟨hof h.1, h.2.1, hcov h.2.2⟩
  | embed plan pending => exact ⟨hof h.1, h.2.1, hcov h.2.2⟩
  | embedding plan pending => exact ⟨hof h.1, h.2.1, hcov h.2.2⟩
  | checkpoint plan pending vectors usage => exact ⟨hof h.1, hcov h.2.1, h.2.2⟩
  | complete plan => exact hcov h
  | _ => trivial

/-- What a starting worker finds pending is what is missing. -/
theorem covers_pending {claim : Claim} (hid : r.id = claim.jobId) (hk : Table.Keyed CodeChunk.id db.chunks)
    (hf : ∀ c ∈ db.chunks, c.indexId = r.data.sourceIndexId → ∃ f ∈ db.files, f.id = c.fileId)
    (h : ∃ pending, Covers db r pending) : Covers db r ((pendingChunks claim r db).map (·.id)) := by
  obtain ⟨pending, hcov⟩ := h
  have hnd : (db.chunkIds r.data.sourceIndexId).Nodup := hk.filter _
  have hsrc := Db.sourceChunks_ids hf
  have hnd₂ := (hcov.nodup_iff.2 hnd)
  rw [List.nodup_append] at hnd₂
  have hpend : (pendingChunks claim r db).map (·.id) =
      ((db.sourceChunks r.data.sourceIndexId none).map (·.id)).filter (· ∉ (documentsOf db r.id).map (·.chunkId)) := by
    unfold pendingChunks documentsOf
    rw [hid, List.filter_map]
    rfl
  unfold Covers
  rw [hpend]
  refine (List.perm_ext_iff_of_nodup ?_ hnd).2 fun i => ?_
  · rw [List.nodup_append]
    refine ⟨hnd₂.1, ((hsrc.nodup_iff.2 hnd)).filter _, fun a ha b hb he => ?_⟩
    have := (List.mem_filter.1 hb).2
    rw [he] at ha
    simp only [decide_not, Bool.not_eq_true', decide_eq_false_iff_not] at this
    exact this ha
  · rw [List.mem_append, List.mem_filter, hsrc.mem_iff]
    constructor
    · rintro (h | h)
      · exact hcov.mem_iff.1 (List.mem_append_left _ h)
      · exact h.1
    · intro h
      by_cases hd : i ∈ (documentsOf db r.id).map (·.chunkId)
      · exact .inl hd
      · exact .inr ⟨h, by simpa using hd⟩

/-- The documents of a batch are those of its chunks. -/
theorem documents_batch {claim : Claim} {plan : Plan} {cs : List Db.SourceChunk} {vectors : List (Option Vector)}
    (hlen : vectors.length = cs.length) :
    (List.zipWith (document env plan claim) cs vectors).map (·.chunkId) = cs.map (·.id) := by
  rw [List.map_zipWith]
  induction cs generalizing vectors with
  | nil => simp
  | cons c cs ih =>
    cases vectors with
    | nil => simp at hlen
    | cons v vs =>
      have hlen' : vs.length = cs.length := by simpa using hlen
      have := ih hlen'
      simpa [document] using this

theorem documentsOf_append (db : Db) {docs : List SearchDocument} {id : Uuid} (h : ∀ d ∈ docs, d.searchIndexId = id) :
    documentsOf { db with documents := db.documents ++ docs } id = documentsOf db id ++ docs := by
  unfold documentsOf
  rw [List.filter_append]
  congr 1
  exact List.filter_eq_self.2 fun d hd => decide_eq_true (h d hd)

theorem documentsOf_append_ne (db : Db) {docs : List SearchDocument} {id jobId : Uuid} (hne : jobId ≠ id)
    (h : ∀ d ∈ docs, d.searchIndexId = jobId) :
    documentsOf { db with documents := db.documents ++ docs } id = documentsOf db id := by
  have hnone : documentsOf { db with documents := docs } id = [] :=
    List.filter_eq_nil_iff.2 fun d hd => by simpa [h d hd] using hne
  unfold documentsOf at hnone ⊢
  rw [List.filter_append, hnone, List.append_nil]

/-- A step of the holder of the lease keeps what it knows. -/
theorem Progress.effect {now : Time} {claim : Claim} {provider : Option EmbeddingProvider} {input : Input}
    {pc pc' : Pc} (h : Progress env db r pc) (he : Effect env now claim provider input pc db pc' db')
    (hk : Table.Keyed Job.id db.searches) (hr : r ∈ db.searches) (hid : r.id = claim.jobId)
    (hck : Table.Keyed CodeChunk.id db.chunks)
    (hf : ∀ c ∈ db.chunks, c.indexId = r.data.sourceIndexId → ∃ f ∈ db.files, f.id = c.fileId)
    (hst : ∃ pending, Covers db r pending) (hid' : r'.id = r.id)
    (hs : r'.data.sourceIndexId = r.data.sourceIndexId) (hm : r'.data.mode = r.data.mode) :
    Progress env db' r' pc' := by
  have hsame : ∀ {pc : Pc}, Progress env db r pc → Progress env db r' pc := fun h => h.congr hid' hs hm rfl rfl
  cases he with
  | idle hc => exact hsame h
  | stopped pc' hstop hc => rcases hstop with rfl | ⟨_, _, rfl⟩ <;> trivial
  | loaded hpc hj hpre =>
    have hjid := List.find?_some hj
    simp only [decide_eq_true_eq] at hjid
    have hjr := hk.eq (List.mem_of_find?_eq_some hj) hr (hjid.trans hid.symm)
    subst hjr
    have hload : Progress env db _ (.reporting (planOf provider _) (pendingChunks claim _ db)) :=
      ⟨⟨rfl, rfl⟩, covers_pending hid hck hf hst⟩
    exact hsame hload
  | reported hpc hr =>
    subst hpc
    exact h.congr hid' hs hm rfl rfl
  | emptied hpc =>
    subst hpc
    exact (hsame h).2
  | lexical hpc hp hmode =>
    subst hpc
    obtain ⟨hof, hcov⟩ := hsame h
    refine ⟨hof, hcov, by simp, ?_, by simp [Plan.due, hmode]⟩
    intro v hv
    obtain ⟨c, -, rfl⟩ := List.mem_map.1 hv
    simp [hmode]
  | semantic hpc hp hmode =>
    subst hpc
    exact ⟨(hsame h).1, hmode, (hsame h).2⟩
  | reserved hpc hres =>
    subst hpc
    obtain ⟨searches, -, rfl⟩ := reserve_eq hres
    exact h.congr hid' hs hm rfl rfl
  | called hpc hin =>
    subst hpc
    exact hsame h
  | answered hpc hlen hsome =>
    subst hpc
    obtain ⟨hof, hmode, hcov⟩ := hsame h
    exact ⟨hof, hcov, hlen, fun v hv => ⟨fun _ => hmode, fun _ => hsome v hv⟩, by simp [Plan.due, hmode]⟩
  | @stored plan pending vectors usage _ hpc hc =>
    subst hpc
    obtain ⟨searches, -, rfl⟩ := checkpoint_eq hc
    obtain ⟨hof, hcov, hlen, -, -⟩ := hsame h
    refine ⟨hof, ?_⟩
    have hdocs : documentsOf { db with
        searches := searches
        documents := db.documents ++ List.zipWith (document env plan claim) (head pending) vectors } r'.id =
          documentsOf db r'.id ++ List.zipWith (document env plan claim) (head pending) vectors := by
      refine documentsOf_append db fun d hd => ?_
      obtain ⟨c, -, v, -, rfl⟩ := Table.exists_of_mem_zipWith hd
      exact (hid'.trans hid).symm
    unfold Covers at hcov ⊢
    rw [hdocs, List.map_append, documents_batch hlen, List.append_assoc, ← List.map_append, head,
      List.take_append_drop]
    exact hcov
  | completed hpc hc => trivial
  | failed hpc => trivial

/-- The tokens of a batch's documents are those the batch was charged for. -/
theorem documents_tokens {claim : Claim} {plan : Plan} {cs : List Db.SourceChunk} {vectors : List (Option Vector)}
    (hlen : vectors.length = cs.length) :
    ((List.zipWith (document env plan claim) cs vectors).map (·.tokenCount)).sum = plan.tokens env cs := by
  unfold Plan.tokens
  rw [List.map_zipWith]
  induction cs generalizing vectors with
  | nil => simp
  | cons c cs ih =>
    cases vectors with
    | nil => simp at hlen
    | cons v vs =>
      have hlen' : vs.length = cs.length := by simpa using hlen
      have := ih hlen'
      simp only [List.zipWith_cons_cons, List.sum_cons, List.map_cons, this]
      rfl

/-- Storing a batch that the worker prepared for this row. -/
theorem Stored.store {claim : Claim} {plan : Plan} {pending : List Db.SourceChunk} {vectors : List (Option Vector)}
    {usage : Nat} {searches : List SearchIndex} (h : Stored db r) (hid : r.id = claim.jobId)
    (hrun : r.status = .running) (hp : Progress env db r (.checkpoint plan pending vectors usage)) :
    Stored { db with
        searches := searches
        documents := db.documents ++ List.zipWith (document env plan claim) (head pending) vectors }
      (addStored (List.zipWith (document env plan claim) (head pending) vectors).length usage r) := by
  obtain ⟨⟨hmode, hsource⟩, hcov, hlen, hvec, husage⟩ := hp
  have hdocs : documentsOf { db with
      searches := searches
      documents := db.documents ++ List.zipWith (document env plan claim) (head pending) vectors } r.id =
        documentsOf db r.id ++ List.zipWith (document env plan claim) (head pending) vectors := by
    refine documentsOf_append db fun d hd => ?_
    obtain ⟨c, -, v, -, rfl⟩ := Table.exists_of_mem_zipWith hd
    exact hid.symm
  constructor
  · refine ⟨(pending.drop 8).map (·.id), ?_⟩
    unfold Covers at hcov ⊢
    show (((documentsOf _ r.id).map (·.chunkId)) ++ _).Perm (db.chunkIds r.data.sourceIndexId)
    rw [hdocs, List.map_append, documents_batch hlen, List.append_assoc, ← List.map_append, head,
      List.take_append_drop]
    exact hcov
  · intro d hd
    change d ∈ documentsOf _ r.id at hd
    rw [hdocs] at hd
    rcases List.mem_append.1 hd with hd | hd
    · exact h.source d hd
    · obtain ⟨c, -, v, -, rfl⟩ := Table.exists_of_mem_zipWith hd
      exact hsource
  · show r.data.documentsStored + _ = (documentsOf _ r.id).length
    rw [hdocs, List.length_append, h.count]
  · show r.data.inputTokens + usage =
      if r.data.mode = .hybrid then ((documentsOf _ r.id).map (·.tokenCount)).sum else 0
    rw [hdocs, h.usage, husage, Plan.due, hmode, List.map_append, List.sum_append, documents_tokens hlen]
    split <;> rfl
  · intro d hd
    change d ∈ documentsOf _ r.id at hd
    rw [hdocs] at hd
    rcases List.mem_append.1 hd with hd | hd
    · exact h.embedding d hd
    · obtain ⟨c, -, v, hv, rfl⟩ := Table.exists_of_mem_zipWith hd
      show v.isSome ↔ r.data.mode = .hybrid
      rw [← hmode]
      exact hvec v hv
  · intro hs
    cases hrun.symm.trans hs

/-- A new search index. -/
structure New (db : Db) (ids : List Uuid) (r : SearchIndex) : Prop where
  id : r.id ∈ ids
  status : r.status = .queued
  count : r.data.documentsStored = 0
  usage : r.data.inputTokens = 0
  source : ∃ x ∈ db.indexes, x.id = r.data.sourceIndexId ∧ x.status = .completed ∧ x.repositoryId = r.repositoryId

end Searches

namespace Jobs
variable {env : Env} {now : Time} {a : Action} {s : Jobs} {w w' : World}

/-- A search action stores a batch, completes a job, or does neither. -/
theorem search_outcome (env : Env) (now : Time) (s : Jobs) (h : a.kind = .searches) :
    ((step env now a s).db.documents = s.db.documents ∧
        ∀ r' ∈ (step env now a s).db.searches,
          (∃ r ∈ s.db.searches, Searches.Quiet r r') ∨ Searches.New s.db a.ids r') ∨
      (∃ i input k plan pending vectors usage, a = .searchStep i input ∧ s.searchWorkers[i]? = some k ∧
        k.pc = .checkpoint plan pending vectors usage ∧
        Searches.checkpoint now k.claim
            (List.zipWith (Searches.document env plan k.claim) (Searches.head pending) vectors) usage s.db =
          some (step env now a s).db) ∨
      ∃ i input k plan, a = .searchStep i input ∧ s.searchWorkers[i]? = some k ∧ k.pc = .complete plan ∧
        Searches.complete now k.claim s.db = some (step env now a s).db := by
  cases a <;> try cases h
  case startSearch settings userId repositoryId mode limit jobId =>
    refine .inl ?_
    rcases committed_cases s.db (Searches.start now settings userId repositoryId mode limit jobId s.db) with
      h | ⟨p, hp, h⟩ <;> simp only [step, h]
    · exact ⟨trivial, fun r' hr' => .inl ⟨r', hr', .refl r'⟩⟩
    · rcases Searches.start_eq hp with he | ⟨index, hsrc, -, -, ⟨l, -, -, he⟩ | ⟨searches, hi, he⟩⟩ <;> rw [he]
      · exact ⟨rfl, fun r' hr' => .inl ⟨r', hr', .refl r'⟩⟩
      · refine ⟨rfl, fun r' hr' => .inl (Searches.quiet_update (fun r _ _ => ?_) r' hr')⟩
        exact ⟨rfl, rfl, rfl, rfl, rfl, rfl, by rintro ⟨⟩⟩
      · refine ⟨rfl, fun r' hr' => ?_⟩
        rcases Job.mem_of_insert hi hr' with hr' | rfl
        · refine .inl (Searches.quiet_update (fun r _ _ => ?_) r' hr')
          exact ⟨rfl, rfl, rfl, rfl, rfl, rfl, fun h => h⟩
        · refine .inr ⟨by simp [Job.new, Action.ids], rfl, rfl, rfl, ?_⟩
          obtain ⟨-, imported, -, ha⟩ := Searches.source_eq hsrc
          obtain ⟨hm, hr, -, hst⟩ := Db.activeIndex_eq ha
          exact ⟨index, hm, rfl, hst, hr⟩
  case cancelSearch userId repositoryId =>
    refine .inl ?_
    rcases committed_map_cases s.db (Searches.cancel now userId repositoryId s.db) with h | ⟨db', hp, h⟩ <;>
      simp only [step, h]
    · exact ⟨trivial, fun r' hr' => .inl ⟨r', hr', .refl r'⟩⟩
    · rw [(Searches.cancel_eq hp).2]
      refine ⟨rfl, fun r' hr' => .inl (Searches.quiet_update (fun r _ _ => ?_) r' hr')⟩
      exact ⟨rfl, rfl, rfl, rfl, rfl, rfl, by rintro ⟨⟩⟩
  case claimSearch jobId token provider =>
    refine .inl ?_
    simp only [step, claimSearch]
    split
    · rename_i p hp
      obtain ⟨-, -, -, -, ht, -⟩ := Job.claimJob_eq hp
      refine ⟨rfl, fun r' hr' => .inl ?_⟩
      rw [ht] at hr'
      refine Searches.quiet_update (fun r _ _ => ?_) r' hr'
      exact ⟨rfl, rfl, rfl, rfl, rfl, rfl, by rintro ⟨⟩⟩
    · exact ⟨rfl, fun r' hr' => .inl ⟨r', hr', .refl r'⟩⟩
  case searchCycle input =>
    refine .inl ⟨rfl, fun r' hr' => .inl ?_⟩
    simp only [step, Cycle.step] at hr'
    split at hr'
    · refine Searches.quiet_update (fun r _ _ => ?_) r' hr'
      exact ⟨rfl, rfl, rfl, rfl, rfl, rfl, by rintro ⟨⟩⟩
    · split at hr' <;> exact ⟨r', hr', .refl r'⟩
    · split at hr'
      · dsimp only at hr'
        split at hr'
        · refine Searches.quiet_update (fun r _ _ => ?_) r' hr'
          exact ⟨rfl, rfl, rfl, rfl, rfl, rfl, fun h => h⟩
        · exact ⟨r', hr', .refl r'⟩
      · exact ⟨r', hr', .refl r'⟩
  case searchStep i input =>
    simp only [step, searchStep]
    split
    swap
    · exact .inl ⟨rfl, fun r' hr' => .inl ⟨r', hr', .refl r'⟩⟩
    rename_i k hk
    have he := Searches.step_effect env now k.claim k.provider input k.pc s.db
    generalize (Searches.step env now k.claim k.provider input k.pc s.db).1 = pc' at he ⊢
    generalize (Searches.step env now k.claim k.provider input k.pc s.db).2 = db' at he ⊢
    have hsame : s.db.documents = s.db.documents ∧ ∀ r' ∈ s.db.searches,
        (∃ r ∈ s.db.searches, Searches.Quiet r r') ∨ Searches.New s.db (Action.searchStep i input).ids r' :=
      ⟨rfl, fun r' hr' => .inl ⟨r', hr', .refl r'⟩⟩
    cases he with
    | idle hc => exact .inl hsame
    | stopped pc' h hc => exact .inl hsame
    | loaded hpc hj hpre => exact .inl hsame
    | emptied hpc => exact .inl hsame
    | lexical hpc hp hm => exact .inl hsame
    | semantic hpc hp hm => exact .inl hsame
    | called hpc hin => exact .inl hsame
    | answered hpc hlen hsome => exact .inl hsame
    | reported hpc hr =>
      refine .inl ⟨rfl, fun r' hr' => .inl ?_⟩
      refine Searches.quiet_fenced (fun r _ => ?_) hr r' hr'
      exact ⟨rfl, rfl, rfl, rfl, rfl, rfl, fun h => h⟩
    | reserved hpc hres =>
      obtain ⟨searches, hf, rfl⟩ := Searches.reserve_eq hres
      refine .inl ⟨rfl, fun r' hr' => .inl ?_⟩
      refine Searches.quiet_fenced (fun r _ => ?_) hf r' hr'
      exact ⟨rfl, rfl, rfl, rfl, rfl, rfl, fun h => h⟩
    | failed hpc =>
      rcases Searches.recordFailure_eq now k.claim _ _ s.db with h | ⟨searches, hf, h⟩ <;> rw [h]
      · exact .inl hsame
      · refine .inl ⟨rfl, fun r' hr' => .inl ?_⟩
        refine Searches.quiet_fenced (fun r _ => ?_) hf r' hr'
        exact ⟨rfl, rfl, rfl, rfl, rfl, rfl, by rintro ⟨⟩⟩
    | stored hpc hc => exact .inr (.inl ⟨i, input, k, _, _, _, _, rfl, hk, hpc, hc⟩)
    | completed hpc hc => exact .inr (.inr ⟨i, input, k, _, rfl, hk, hpc, hc⟩)

/-- The chunks of a completed index do not change as long as the index is there. -/
theorem chunks_kept (env : Env) (now : Time) (hi : Inv w s)
    (hf : ∀ i ∈ a.ids, i ∉ w.issued) {x x' : RepositoryIndex} (hx : x ∈ s.db.indexes)
    (hc : x.status = .completed) (hx' : x' ∈ (step env now a s).db.indexes) (hid : x'.id = x.id) :
    (step env now a s).db.chunkIds x.id = s.db.chunkIds x.id := by
  unfold Db.chunkIds
  cases hk : a.kind with
  | imports => rw [(frame_imports _ _ _ hk).2.2.1]
  | searches => rw [(frame_searches _ _ _ hk).2.2.2.2.2]
  | indexes =>
    rcases index_outcome env now hi hf hk with
      ⟨-, -, hchunks, -⟩ | ⟨k, source, built, n, ids, db', -, -, -, hpub, hdb, -⟩
    · rw [hchunks]
    · -- a publication adds chunks to the index it completes, which was running
      obtain ⟨indexes, hfen, he⟩ := Indexes.publishIndex_eq hpub
      obtain ⟨⟨q, hq, hl, -⟩, -⟩ := Job.fencedIf_isSome hfen
      have hne : k.claim.jobId ≠ x.id := by
        intro hkx
        have hrun := hl.2.1
        rw [hi.indexes.keyed.eq hq hx (hl.1.trans hkx), hc] at hrun
        cases hrun
      have hnone :
          (List.zipWith (Indexes.chunkRow k.claim source) ids built.chunks).filter (·.indexId = x.id) = [] := by
        refine List.filter_eq_nil_iff.2 fun c hc => ?_
        obtain ⟨i, -, p, -, rfl⟩ := Table.exists_of_mem_zipWith hc
        simp [Indexes.chunkRow, hne]
      rw [hdb, he, List.filter_append, hnone, List.append_nil]
  | removal =>
    cases a <;> try cases hk
    case removal.removeRepository.refl userId repositoryId =>
      rcases removeRepository_cases s.db userId repositoryId with hr | hr <;> simp only [step, hr] at hx' ⊢
      have hkeep := (List.mem_filter.1 hx').2
      simp only [Db.deleteRepository, List.filter_filter]
      refine congrArg _ (List.filter_congr fun c _ => ?_)
      by_cases hcx : c.indexId = x.id
      · simp only [hcx, decide_true, Bool.true_and, decide_eq_true_eq]
        intro hm
        obtain ⟨q, hq, hqid⟩ := List.mem_map.1 hm
        obtain ⟨hq, hqr⟩ := List.mem_filter.1 hq
        rw [hi.indexes.keyed.eq hq (List.mem_filter.1 hx').1 (hqid.trans hid.symm)] at hqr
        exact absurd (of_decide_eq_true hqr) (of_decide_eq_true hkeep)
      · simp [hcx]

/-- Search preparation covers its source. -/
structure CoverageInv (env : Env) (s : Jobs) : Prop where
  sources : ∀ r ∈ s.db.searches, ∃ x ∈ s.db.indexes,
    x.id = r.data.sourceIndexId ∧ x.status = .completed ∧ x.repositoryId = r.repositoryId
  owners : ∀ d ∈ s.db.documents, ∃ r ∈ s.db.searches, r.id = d.searchIndexId
  stored : ∀ r ∈ s.db.searches, Searches.Stored s.db r
  workers : ∀ k ∈ s.searchWorkers, ∀ r ∈ s.db.searches, r.id = k.claim.jobId →
    r.leaseToken = some k.claim.leaseToken → Searches.Progress env s.db r k.pc

namespace CoverageInv

theorem empty : CoverageInv env Jobs.empty := by
  constructor <;> intro x hx <;> cases hx

theorem sources_step (now : Time) (h : CoverageInv env s) (hi : Inv w s) (hf : ∀ i ∈ a.ids, i ∉ w.issued) :
    ∀ r ∈ (Jobs.step env now a s).db.searches, ∃ x ∈ (Jobs.step env now a s).db.indexes,
      x.id = r.data.sourceIndexId ∧ x.status = .completed ∧ x.repositoryId = r.repositoryId := by
  have hxch := indexes_changes env now hi.indexes hf
  have hins : ∀ i ∈ (actor now a s).inserts, i ∉ w.issued := fun i hm =>
    hf _ (fresh_subset now s _ (List.mem_append_right _ hm))
  cases hk : a.kind with
  | imports => rw [(frame_imports _ _ _ hk).1, (frame_imports _ _ _ hk).2.2.2.1]; exact h.sources
  | indexes =>
    have hdel : (actor now a s).deletes = false := by cases a <;> first | rfl | cases hk
    rw [(frame_indexes _ _ _ hk).2.2.2.1]
    intro r hr
    obtain ⟨x, hx, hid, hs, hrep⟩ := h.sources r hr
    obtain ⟨x', hx', hid'⟩ := hxch.survives hdel hx
    have hfr : ∀ q ∈ s.db.indexes, q.id ∉ (actor now a s).inserts := fun q hq hm => hins _ hm (hi.indexes.ids q hq)
    rcases hxch.grown hx' with ⟨q, hq, hsame, -⟩ | hm
    · rw [hi.indexes.keyed.eq hq hx (hsame.1.symm.trans hid')] at hsame
      exact ⟨x', hx', hid'.trans hid, (hxch.completed hfr hi.indexes.keyed hx hs hx' hid').1, hsame.2.1.trans hrep⟩
    · exact absurd (hid' ▸ hm) (hfr x hx)
  | searches =>
    have hch := searches_changes env now hi.searches hi.profiled hf
    rw [(frame_searches _ _ _ hk).2.2.2.1]
    intro r' hr'
    rcases hch.grown hr' with ⟨r, hr, hsame, hg⟩ | hm
    · rw [hg.1, hsame.2.1]
      exact h.sources r hr
    · rcases search_outcome env now s hk with
        ⟨-, hrows⟩ | ⟨i, input, k, -, -, -, -, rfl, -⟩ | ⟨i, input, k, -, rfl, -⟩
      · rcases hrows r' hr' with ⟨r, hr, hq⟩ | hn
        · exact absurd (hi.searches.ids r hr) (hins _ (hq.id ▸ hm))
        · exact hn.source
      · cases hm
      · cases hm
  | removal =>
    cases a <;> try cases hk
    case removal.removeRepository.refl userId repositoryId =>
      rcases removeRepository_cases s.db userId repositoryId with hr | hr <;> simp only [Jobs.step, hr]
      · exact h.sources
      · intro r hm
        obtain ⟨hm, hkeep⟩ := List.mem_filter.1 hm
        obtain ⟨x, hx, hid, hs, hrep⟩ := h.sources r hm
        refine ⟨x, List.mem_filter.2 ⟨hx, ?_⟩, hid, hs, hrep⟩
        rw [hrep]
        exact hkeep

theorem owners_step (h : CoverageInv env s) (hi : Inv w s) (hf : ∀ i ∈ a.ids, i ∉ w.issued) :
    ∀ d ∈ (Jobs.step env now a s).db.documents,
      ∃ r ∈ (Jobs.step env now a s).db.searches, r.id = d.searchIndexId := by
  cases hk : a.kind with
  | imports => rw [(frame_imports _ _ _ hk).2.2.2.1, (frame_imports _ _ _ hk).2.2.2.2]; exact h.owners
  | indexes => rw [(frame_indexes _ _ _ hk).2.2.2.1, (frame_indexes _ _ _ hk).2.2.2.2]; exact h.owners
  | searches =>
    have hch := searches_changes env now hi.searches hi.profiled hf
    have hdel : (actor now a s).deletes = false := by cases a <;> first | rfl | cases hk
    have hold : ∀ r ∈ s.db.searches, ∃ r' ∈ (Jobs.step env now a s).db.searches, r'.id = r.id :=
      fun r hr => hch.survives hdel hr
    rcases search_outcome env now s hk with
      ⟨hdocs, -⟩ | ⟨i, input, k, plan, pending, vectors, usage, -, -, -, hc⟩ | ⟨i, input, k, plan, -, -, -, hc⟩
    · intro d hd
      rw [hdocs] at hd
      obtain ⟨r, hr, hid⟩ := h.owners d hd
      obtain ⟨r', hr', hid'⟩ := hold r hr
      exact ⟨r', hr', hid'.trans hid⟩
    · obtain ⟨searches, hfen, he⟩ := Searches.checkpoint_eq hc
      obtain ⟨⟨q, hq, hl, -⟩, -⟩ := Job.fencedIf_isSome hfen
      intro d hd
      rw [he] at hd
      rcases List.mem_append.1 hd with hd | hd
      · obtain ⟨r, hr, hid⟩ := h.owners d hd
        obtain ⟨r', hr', hid'⟩ := hold r hr
        exact ⟨r', hr', hid'.trans hid⟩
      · obtain ⟨c, -, v, -, rfl⟩ := Table.exists_of_mem_zipWith hd
        obtain ⟨r', hr', hid'⟩ := hold q hq
        exact ⟨r', hr', hid'.trans hl.1⟩
    · obtain ⟨searches, -, he⟩ := Searches.complete_eq hc
      intro d hd
      have hdocs : (Jobs.step env now a s).db.documents = s.db.documents := by rw [he]
      rw [hdocs] at hd
      obtain ⟨r, hr, hid⟩ := h.owners d hd
      obtain ⟨r', hr', hid'⟩ := hold r hr
      exact ⟨r', hr', hid'.trans hid⟩
  | removal =>
    cases a <;> try cases hk
    case removal.removeRepository.refl userId repositoryId =>
      rcases removeRepository_cases s.db userId repositoryId with hr | hr <;> simp only [Jobs.step, hr]
      · exact h.owners
      · intro d hd
        obtain ⟨hd, hkeep⟩ := List.mem_filter.1 hd
        obtain ⟨r, hm, hid⟩ := h.owners d hd
        refine ⟨r, List.mem_filter.2 ⟨hm, ?_⟩, hid⟩
        refine decide_eq_true fun hrep => of_decide_eq_true hkeep ?_
        exact List.mem_map.2 ⟨r, List.mem_filter.2 ⟨hm, decide_eq_true hrep⟩, hid⟩

/-- Where a search index of the next state comes from, and its documents. -/
theorem row_cases (now : Time) (h : CoverageInv env s) (hi : Inv w s)
    (hf : ∀ i ∈ a.ids, i ∉ w.issued) {r' : SearchIndex}
    (hr' : r' ∈ (Jobs.step env now a s).db.searches) :
    (Searches.New s.db a.ids r' ∧ Searches.documentsOf (Jobs.step env now a s).db r'.id = []) ∨
      (∃ r ∈ s.db.searches, Searches.Quiet r r' ∧
        Searches.documentsOf (Jobs.step env now a s).db r.id = Searches.documentsOf s.db r.id) ∨
      (∃ i input k plan pending vectors usage searches, a = .searchStep i input ∧ s.searchWorkers[i]? = some k ∧
        k.pc = .checkpoint plan pending vectors usage ∧
        (Jobs.step env now a s).db = { s.db with
          searches := searches
          documents := s.db.documents ++
            List.zipWith (Searches.document env plan k.claim) (Searches.head pending) vectors } ∧
        ∃ r ∈ s.db.searches, Job.LeaseCondition now k.claim r ∧
          r' = Searches.addStored (List.zipWith (Searches.document env plan k.claim) (Searches.head pending)
            vectors).length usage r) ∨
      ∃ i input k plan, a = .searchStep i input ∧ s.searchWorkers[i]? = some k ∧ k.pc = .complete plan ∧
        (∃ searches, (Jobs.step env now a s).db = { s.db with searches := searches }) ∧
        ∃ r ∈ s.db.searches, Job.LeaseCondition now k.claim r ∧ r' = Job.finished now id r := by
  cases hk : a.kind with
  | imports =>
    obtain ⟨-, -, -, hs, hd⟩ := frame_imports env now s hk
    rw [hs] at hr'
    exact .inr (.inl ⟨r', hr', .refl r', by unfold Searches.documentsOf; rw [hd]⟩)
  | indexes =>
    obtain ⟨-, -, -, hs, hd⟩ := frame_indexes env now s hk
    rw [hs] at hr'
    exact .inr (.inl ⟨r', hr', .refl r', by unfold Searches.documentsOf; rw [hd]⟩)
  | removal =>
    cases a <;> try cases hk
    case removal.removeRepository.refl userId repositoryId =>
      rcases removeRepository_cases s.db userId repositoryId with hr | hr <;> simp only [Jobs.step, hr] at hr' ⊢
      · exact .inr (.inl ⟨r', hr', .refl r', trivial⟩)
      · obtain ⟨hr', hkeep⟩ := List.mem_filter.1 hr'
        refine .inr (.inl ⟨r', hr', .refl r', ?_⟩)
        unfold Searches.documentsOf
        rw [Db.deleteRepository, List.filter_filter]
        refine List.filter_congr fun d _ => ?_
        by_cases hd : d.searchIndexId = r'.id
        · simp only [hd, decide_true, Bool.true_and, decide_eq_true_eq]
          intro hm
          obtain ⟨q, hq, hqid⟩ := List.mem_map.1 hm
          obtain ⟨hq, hqr⟩ := List.mem_filter.1 hq
          rw [hi.searches.keyed.eq hq hr' hqid] at hqr
          exact absurd (of_decide_eq_true hqr) (of_decide_eq_true hkeep)
        · simp [hd]
  | searches =>
    rcases search_outcome env now s hk with
      ⟨hdocs, hrows⟩ | ⟨i, input, k, plan, pending, vectors, usage, ha, hk₀, hpc, hc⟩ |
        ⟨i, input, k, plan, ha, hk₀, hpc, hc⟩
    · rcases hrows r' hr' with ⟨r, hr, hq⟩ | hn
      · exact .inr (.inl ⟨r, hr, hq, by unfold Searches.documentsOf; rw [hdocs]⟩)
      · refine .inl ⟨hn, ?_⟩
        unfold Searches.documentsOf
        rw [hdocs]
        refine List.filter_eq_nil_iff.2 fun d hd hid => ?_
        obtain ⟨r, hr, hrid⟩ := h.owners d hd
        exact hf _ hn.id ((hrid.trans (of_decide_eq_true hid)) ▸ hi.searches.ids r hr)
    · obtain ⟨searches, hfen, he⟩ := Searches.checkpoint_eq hc
      obtain ⟨⟨q, hq, hl, -⟩, ht⟩ := Job.fencedIf_isSome hfen
      have hm := hr'
      rw [he, ht] at hm
      obtain ⟨r, hr, hre⟩ := Table.mem_update.1 hm
      by_cases hcond : Job.LeaseCondition now k.claim r ∧ True
      · rw [if_pos hcond] at hre
        exact .inr (.inr (.inl ⟨i, input, k, plan, pending, vectors, usage, searches, ha, hk₀, hpc, he, r, hr,
          hcond.1, hre⟩))
      · rw [if_neg hcond] at hre
        subst hre
        refine .inr (.inl ⟨r', hr, .refl r', ?_⟩)
        have hne : k.claim.jobId ≠ r'.id := fun hid =>
          hcond ⟨hi.searches.keyed.eq hq hr (hl.1.trans hid) ▸ hl, trivial⟩
        rw [he]
        refine Searches.documentsOf_append_ne s.db hne fun d hd => ?_
        obtain ⟨c, -, v, -, rfl⟩ := Table.exists_of_mem_zipWith hd
        rfl
    · obtain ⟨searches, hfen, he⟩ := Searches.complete_eq hc
      obtain ⟨-, ht⟩ := Job.fencedIf_isSome hfen
      have hm := hr'
      rw [he, ht] at hm
      obtain ⟨r, hr, hre⟩ := Table.mem_update.1 hm
      by_cases hcond : Job.LeaseCondition now k.claim r ∧ True
      · rw [if_pos hcond] at hre
        exact .inr (.inr (.inr ⟨i, input, k, plan, ha, hk₀, hpc, ⟨searches, he⟩, r, hr, hcond.1, hre⟩))
      · rw [if_neg hcond] at hre
        subst hre
        exact .inr (.inl ⟨r', hr, .refl r', by rw [he]; rfl⟩)

/-- The chunks of a search index's source do not change. -/
theorem source_kept (h : CoverageInv env s) (hi : Inv w s) (hf : ∀ i ∈ a.ids, i ∉ w.issued) {r r' : SearchIndex}
    (hr : r ∈ s.db.searches) (hr' : r' ∈ (Jobs.step env now a s).db.searches)
    (hs : r'.data.sourceIndexId = r.data.sourceIndexId) :
    (Jobs.step env now a s).db.chunkIds r.data.sourceIndexId = s.db.chunkIds r.data.sourceIndexId := by
  obtain ⟨x, hx, hid, hc, -⟩ := h.sources r hr
  obtain ⟨x', hx', hid', -⟩ := h.sources_step now hi hf r' hr'
  have := chunks_kept env now hi hf hx hc hx' (hid'.trans (hs.trans hid.symm))
  rwa [hid] at this

theorem stored_step (h : CoverageInv env s) (hi : Inv w s) (hf : ∀ i ∈ a.ids, i ∉ w.issued) :
    ∀ r ∈ (Jobs.step env now a s).db.searches, Searches.Stored (Jobs.step env now a s).db r := by
  intro r' hr'
  rcases h.row_cases now hi hf hr' with
    ⟨hn, hdocs⟩ | ⟨r, hr, hq, hdocs⟩ |
      ⟨i, input, k, plan, pending, vectors, usage, searches, -, hk, hpc, he, r, hr, hl, rfl⟩ |
      ⟨i, input, k, plan, -, hk, hpc, ⟨searches, he⟩, r, hr, hl, rfl⟩
  · constructor
    · exact ⟨_, by unfold Searches.Covers; rw [hdocs]; exact .refl _⟩
    · rw [hdocs]; intro d hd; cases hd
    · rw [hdocs]; exact hn.count
    · rw [hdocs, hn.usage]; simp
    · rw [hdocs]; intro d hd; cases hd
    · intro hs
      cases hn.status.symm.trans hs
  · exact (h.stored r hr).quiet hq hdocs (h.source_kept hi hf hr hr' hq.source)
  · have hp := h.workers k (Table.mem_of_getElem? hk) r hr hl.1 hl.2.2.1
    rw [hpc] at hp
    rw [he]
    exact (h.stored r hr).store hl.1 hl.2.1 hp
  · have hp := h.workers k (Table.mem_of_getElem? hk) r hr hl.1 hl.2.2.1
    rw [hpc] at hp
    rw [he]
    have hold := h.stored r hr
    exact ⟨⟨[], hp⟩, hold.source, hold.count, hold.usage, hold.embedding, fun _ => hp⟩

theorem workers_step (h : CoverageInv env s) (hi : Inv w s) (hc : ContentInv w s)
    (hk : Table.Keyed (·.claim.leaseToken) s.searchWorkers) (hf : ∀ i ∈ a.ids, i ∉ w.issued) :
    ∀ k ∈ (Jobs.step env now a s).searchWorkers, ∀ r ∈ (Jobs.step env now a s).db.searches, r.id = k.claim.jobId →
      r.leaseToken = some k.claim.leaseToken → Searches.Progress env (Jobs.step env now a s).db r k.pc := by
  intro k hkm r' hr' hid htok
  have hch := searches_changes env now hi.searches hi.profiled hf
  -- the row a worker of the old state holds is the one it held before
  have hheld : k.claim.leaseToken ∈ w.issued →
      ∃ r ∈ s.db.searches, r.id = r'.id ∧ r.leaseToken = some k.claim.leaseToken := by
    intro hissued
    obtain ⟨r, hr, hrid, hrtok, -⟩ := hch.held hr' htok fun hm =>
      hf _ (fresh_subset now s _ (List.mem_append_left _ hm)) hissued
    exact ⟨r, hr, hrid, hrtok⟩
  -- a worker that does not act
  have hold : k ∈ s.searchWorkers →
      (∀ i input k₀, a = .searchStep i input → s.searchWorkers[i]? = some k₀ →
        k₀.claim.leaseToken ≠ k.claim.leaseToken) → Searches.Progress env (Jobs.step env now a s).db r' k.pc := by
    intro hkm hne
    have hgr := hi.searchClaims k hkm
    obtain ⟨q, hq, hqid, hqtok⟩ := hheld hgr.issued
    have hp := h.workers k hkm q hq (hqid.trans hid) hqtok
    rcases h.row_cases now hi hf hr' with
      ⟨hn, -⟩ | ⟨r, hr, hquiet, hdocs⟩ | ⟨i, input, k₀, _, _, _, _, _, ha, hk₀, -, -, r, hr, hl, rfl⟩ |
        ⟨_, _, _, _, -, -, -, -, _, -, -, rfl⟩
    · exact absurd (hid ▸ hgr.job) (hf _ hn.id)
    · have : q = r := hi.searches.keyed.eq hq hr (hqid.trans hquiet.id)
      subst this
      exact hp.congr hquiet.id hquiet.source hquiet.mode hdocs (h.source_kept hi hf hr hr' hquiet.source)
    · have : q = r := hi.searches.keyed.eq hq hr hqid
      subst this
      exact absurd (Option.some.inj (hl.2.2.1.symm.trans hqtok)) (hne i input k₀ ha hk₀)
    · cases htok
  rcases search_cases env now a s with
    ⟨hw, -, -, hnone⟩ | ⟨jobId, token, provider, p, rfl, -, hs⟩ | ⟨i, input, k₀, pc', rfl, hk₀, hw, -, he⟩
  · rw [hw] at hkm
    refine hold hkm fun i input k₀ ha hk₀ => ?_
    rw [hnone i input ha] at hk₀
    cases hk₀
  · rw [hs] at hkm
    rcases List.mem_append.1 hkm with hkm | hkm
    · exact hold hkm nofun
    · rw [List.mem_singleton.1 hkm]
      trivial
  · rw [hw] at hkm
    rcases Table.mem_set_cases hkm with rfl | ⟨j, hji, hj⟩
    · have hk₀m := Table.mem_of_getElem? hk₀
      obtain ⟨r, hr, hrid, hrtok⟩ := hheld (hi.searchClaims k₀ hk₀m).issued
      obtain ⟨x, hx, hxid, -⟩ := h.sources r hr
      obtain ⟨q, hq, hsame, hg⟩ := (hch.grown hr').resolve_right nofun
      have : q = r := hi.searches.keyed.eq hq hr (hsame.1.symm.trans hrid.symm)
      subst this
      refine (h.workers k₀ hk₀m q hq (hrid.trans hid) hrtok).effect he hi.searches.keyed hq (hrid.trans hid)
        hc.chunkKeys (fun c hcm hci => ?_) (h.stored q hq).chunks hrid.symm hg.1 hg.2.1
      obtain ⟨f, hfm, hfid, -⟩ := hc.cut c hcm x hx (hxid.trans hci.symm)
      exact ⟨f, hfm, hfid⟩
    · refine hold (Table.mem_of_getElem? hj) fun i' input' k₁ ha hk₁ heq => ?_
      cases ha
      rw [hk₀] at hk₁
      cases hk₁
      exact hk.ne_of_ne hk₀ hj hji heq.symm

/-- Every action keeps the invariant. -/
theorem step (h : CoverageInv env s) (hi : Inv w s) (hc : ContentInv w s)
    (hk : Table.Keyed (·.claim.leaseToken) s.searchWorkers) (hf : ∀ i ∈ a.ids, i ∉ w.issued) :
    CoverageInv env (Jobs.step env now a s) :=
  ⟨h.sources_step _ hi hf, h.owners_step hi hf, h.stored_step hi hf, h.workers_step hi hc hk hf⟩

end CoverageInv
end Jobs
end RepoPilot
