import RepoPilot.Urls
import RepoPilot.Framing
import RepoPilot.Embeddings
import RepoPilot.Percent

/-! # The GitHub client

`GitHubClient` reads the metadata of a repository, the commit of its default branch and the archive of that commit.
What GitHub answers decides the later requests, but not their host: names are parsed again, the branch is quoted, and
redirects are not followed. -/

namespace RepoPilot
namespace GitHub
open Urls
open Embeddings (Value member)

/-! ### Responses -/

/-- What becomes of a request: no response, or one whose body may break off. -/
inductive Reply
  | unreachable
  | response (status : Nat) (contentEncoding : Option Text) (chunks : List (List UInt8)) (complete : Bool)

def failure (code message : String) : Raised := .importFailure code message false

def networkError : Raised := .importFailure "github_network_error" "GitHub request failed or timed out." true

def tooLarge : Raised := failure "repository_too_large" "Repository download exceeds the configured size limit."

/-- The failure a status stands for. -/
def statusFailure (status : Nat) : Option Raised :=
  if status = 403 ∨ status = 429 then
    some (failure "github_rate_limited" "GitHub access was limited. Wait and retry.")
  else if status = 404 then
    some (failure "repository_unavailable" "Repository or commit is inaccessible, deleted, or not public.")
  else if status ∈ [301, 302, 307, 308] then
    some (failure "repository_moved" "GitHub redirected this request. Use the repository's current URL.")
  else if 500 ≤ status then
    some (.importFailure "github_unavailable" "GitHub is temporarily unavailable." true)
  else if status ≠ 200 then
    some (failure "github_error" "GitHub could not provide this repository or commit.")
  else none

/-- The loop over the blocks of the body. -/
def collect (limit : Nat) (content : List UInt8) : List (List UInt8) → Bool → Except Raised (List UInt8)
  | [], complete => if complete = true then .ok content else .error networkError
  | chunk :: chunks, complete =>
    if limit < content.length + chunk.length then .error tooLarge
    else collect limit (content ++ chunk) chunks complete

/-- The transport encoding is `identity`, or not named. -/
def Plain (contentEncoding : Option Text) : Prop := contentEncoding.getD "identity".toList = "identity".toList

instance : DecidablePred Plain := fun e => inferInstanceAs (Decidable (e.getD "identity".toList = "identity".toList))

/-- `GitHubClient._get`. -/
def get (limit : Nat) : Reply → Except Raised (List UInt8)
  | .unreachable => .error networkError
  | .response status contentEncoding chunks complete =>
    match statusFailure status with
    | some e => .error e
    | none =>
      if ¬ Plain contentEncoding then
        .error (failure "unexpected_encoding" "GitHub returned an unsupported transport encoding.")
      else collect limit [] chunks complete

/-! ### Documents -/

section Documents
variable {α : Type}

structure Metadata where
  id : Nat
  isPrivate : Bool
  fullName : Text
  defaultBranch : Text

def boolean : Value α → Option Bool
  | .bool b => some b
  | _ => none

/-- `Metadata.model_validate_json`, strict. -/
def Metadata.validate : Value α → Option Metadata
  | .obj kvs => do
    let id ← (member kvs "id").bind Value.natural
    let isPrivate ← (member kvs "private").bind boolean
    let fullName ← (member kvs "full_name").bind Value.text
    let defaultBranch ← (member kvs "default_branch").bind Value.text
    if 0 < id ∧ 1 ≤ defaultBranch.length ∧ defaultBranch.length ≤ 255 then
      some ⟨id, isPrivate, fullName, defaultBranch⟩
    else none
  | _ => none

/-- `[0-9a-f]`. -/
def HexChar (c : Char) : Prop := 48 ≤ c.toNat ∧ c.toNat ≤ 57 ∨ 97 ≤ c.toNat ∧ c.toNat ≤ 102

instance : DecidablePred HexChar := fun c =>
  inferInstanceAs (Decidable (48 ≤ c.toNat ∧ c.toNat ≤ 57 ∨ 97 ≤ c.toNat ∧ c.toNat ≤ 102))

/-- `^[0-9a-f]{40}$`. -/
def Sha (s : Text) : Prop := s.length = 40 ∧ ∀ c ∈ s, HexChar c

instance : DecidablePred Sha := fun s => inferInstanceAs (Decidable (s.length = 40 ∧ ∀ c ∈ s, HexChar c))

/-- `Commit.model_validate_json`: the `sha`. -/
def commitSha : Value α → Option Text
  | .obj kvs => ((member kvs "sha").bind Value.text).filter fun s => Sha s
  | _ => none

end Documents

/-! ### Requests -/

structure Request where
  url : Text
  limit : Nat
  deriving DecidableEq

/-- The bytes `quote` leaves as they are. -/
def Safe (b : UInt8) : Prop :=
  48 ≤ b.toNat ∧ b.toNat ≤ 57 ∨ 65 ≤ b.toNat ∧ b.toNat ≤ 90 ∨ 97 ≤ b.toNat ∧ b.toNat ≤ 122 ∨
    b.toNat ∈ [95, 46, 45, 126]

instance : DecidablePred Safe := fun b =>
  inferInstanceAs (Decidable (48 ≤ b.toNat ∧ b.toNat ≤ 57 ∨ 65 ≤ b.toNat ∧ b.toNat ≤ 90 ∨
    97 ≤ b.toNat ∧ b.toNat ≤ 122 ∨ b.toNat ∈ [95, 46, 45, 126]))

/-- `quote(branch, safe='')`. -/
def quoted (branch : Text) : Text := Percent.quote Safe (Framing.encode branch)

def scheme : Text := "https://".toList

def api : Text := "api.github.com".toList

def codeload : Text := "codeload.github.com".toList

/-- The address of a path on a host. -/
def urlOf (host : Text) (path : List Text) : Text := scheme ++ host ++ '/' :: ['/'].intercalate path

def repositoryPath (owner name : Text) : List Text := ["repos".toList, owner, name]

def commitPath (owner name branch : Text) : List Text :=
  ["repos".toList, owner, name, "commits".toList, quoted branch]

def archivePath (source : RepositorySource) : List Text := [source.owner, source.name, "tar.gz".toList, source.sha]

def repositoryRequest (owner name : Text) : Request := ⟨urlOf api (repositoryPath owner name), 1024 * 1024⟩

def commitRequest (owner name branch : Text) : Request :=
  ⟨urlOf api (commitPath owner name branch), 4 * 1024 * 1024⟩

variable {α : Type}

/-- The limit for archives, and the reader of JSON. -/
structure Client (α : Type) where
  archiveLimit : Nat
  json : List UInt8 → Option (Value α)

namespace Client
variable (c : Client α)

def archiveRequest (source : RepositorySource) : Request := ⟨urlOf codeload (archivePath source), c.archiveLimit⟩

def invalidResponse : Raised := failure "github_invalid_response" "GitHub returned unexpected repository metadata."

/-- `resolve`, with the requests it makes; `answer` is what becomes of the `n`-th one. -/
def resolve (answer : Nat → Request → Reply) (owner name : Text) : List Request × Except Raised RepositorySource :=
  let first := repositoryRequest owner name
  match get first.limit (answer 0 first) with
  | .error e => ([first], .error e)
  | .ok body =>
    match (c.json body).bind Metadata.validate with
    | none => ([first], .error invalidResponse)
    | some metadata =>
      if metadata.isPrivate = true then
        ([first], .error (failure "private_repository" "Only public repositories are supported."))
      else
        match parseRepositoryUrl ("https://github.com/".toList ++ metadata.fullName) with
        | none => ([first], .error invalidResponse)
        | some (owner, name) =>
          let second := commitRequest owner name metadata.defaultBranch
          match get second.limit (answer 1 second) with
          | .error e => ([first, second], .error e)
          | .ok body =>
            match (c.json body).bind commitSha with
            | none => ([first, second], .error invalidResponse)
            | some sha => ([first, second], .ok ⟨owner, name, metadata.id, metadata.defaultBranch, sha⟩)

/-- `download`. -/
def download (answer : Request → Reply) (source : RepositorySource) : Except Raised (List UInt8) :=
  get (c.archiveRequest source).limit (answer (c.archiveRequest source))

/-- What `run_import` reads from GitHub, with the requests it makes. -/
def fetch (answer : Nat → Request → Reply) (owner name : Text) :
    List Request × Except Raised (RepositorySource × List UInt8) :=
  match c.resolve answer owner name with
  | (requests, .error e) => (requests, .error e)
  | (requests, .ok source) =>
    (requests ++ [c.archiveRequest source], (c.download (answer 2) source).map (source, ·))

end Client

/-! ### Bodies -/

/-- Only the bytes matter, not the blocks they come in; and no more than the limit is ever kept. -/
theorem collect_eq (limit : Nat) (content : List UInt8) (hc : content.length ≤ limit) (chunks : List (List UInt8))
    (complete : Bool) :
    collect limit content chunks complete =
      if limit < content.length + chunks.flatten.length then .error tooLarge
      else if complete = true then .ok (content ++ chunks.flatten) else .error networkError := by
  induction chunks generalizing content with
  | nil =>
    have hfits : ¬ limit < content.length + ([] : List (List UInt8)).flatten.length := by simpa using hc
    rw [if_neg hfits]
    simp [collect]
  | cons chunk chunks ih =>
    unfold collect
    by_cases hlong : limit < content.length + chunk.length
    · rw [if_pos hlong, if_pos]
      rw [List.flatten_cons, List.length_append]
      omega
    · rw [if_neg hlong, ih _ (by rw [List.length_append]; omega), List.flatten_cons, List.length_append,
        List.length_append, List.append_assoc, Nat.add_assoc]

/-- The reply is worth another attempt: GitHub was not reached, its answer broke off, or it is unavailable. -/
def Transient (limit : Nat) : Reply → Prop
  | .unreachable => True
  | .response status contentEncoding chunks complete =>
    500 ≤ status ∨ status = 200 ∧ Plain contentEncoding ∧ chunks.flatten.length ≤ limit ∧ complete = false

/-- The whole body arrived. -/
def Delivers (limit : Nat) (body : List UInt8) : Reply → Prop
  | .unreachable => False
  | .response status contentEncoding chunks complete =>
    status = 200 ∧ Plain contentEncoding ∧ complete = true ∧ chunks.flatten = body ∧ body.length ≤ limit

/-- A failure of an import, which is worth another attempt exactly if `p` holds. -/
def Fails (p : Prop) (e : Raised) : Prop :=
  ∃ code message retryable, e = .importFailure code message retryable ∧ (retryable = true ↔ p)

theorem fails_failure {p : Prop} (hp : ¬ p) (code message : String) : Fails p (failure code message) :=
  ⟨code, message, false, rfl, by simpa using hp⟩

theorem statusFailure_fails {status : Nat} {e : Raised} (h : statusFailure status = some e) :
    status ≠ 200 ∧ Fails (500 ≤ status) e := by
  unfold statusFailure at h
  split at h
  · cases h
    exact ⟨by omega, fails_failure (by omega) _ _⟩
  · split at h
    · cases h
      exact ⟨by omega, fails_failure (by omega) _ _⟩
    · split at h
      · rename_i hmoved
        cases h
        have hlt : status < 500 ∧ status ≠ 200 := by
          simp only [List.mem_cons, List.not_mem_nil, or_false] at hmoved
          omega
        exact ⟨hlt.2, fails_failure (by omega) _ _⟩
      · split at h
        · cases h
          exact ⟨by omega, _, _, _, rfl, by simpa using ‹500 ≤ status›⟩
        · split at h
          · cases h
            exact ⟨‹_›, fails_failure ‹_› _ _⟩
          · cases h

theorem statusFailure_none {status : Nat} (h : statusFailure status = none) : status = 200 := by
  unfold statusFailure at h
  split at h
  · cases h
  · split at h
    · cases h
    · split at h
      · cases h
      · split at h
        · cases h
        · split at h
          · cases h
          · exact not_not.1 ‹_›

/-- What `_get` makes of a reply. -/
theorem get_spec (limit : Nat) (reply : Reply) :
    (∃ body, get limit reply = .ok body ∧ Delivers limit body reply) ∨
      ∃ e, get limit reply = .error e ∧ Fails (Transient limit reply) e := by
  cases reply with
  | unreachable => exact .inr ⟨_, rfl, _, _, _, rfl, by simp [Transient]⟩
  | response status contentEncoding chunks complete =>
    unfold get
    dsimp only
    cases hs : statusFailure status with
    | some e =>
      obtain ⟨hne, code, message, retryable, he, hr⟩ := statusFailure_fails hs
      exact .inr ⟨e, rfl, code, message, retryable, he, by simp [Transient, hr, hne]⟩
    | none =>
      have h200 := statusFailure_none hs
      subst h200
      dsimp only
      by_cases hp : Plain contentEncoding
      · rw [if_neg (not_not.2 hp), collect_eq limit [] (Nat.zero_le _)]
        simp only [List.length_nil, Nat.zero_add, List.nil_append]
        by_cases hlong : limit < chunks.flatten.length
        · rw [if_pos hlong]
          refine .inr ⟨_, rfl, fails_failure ?_ _ _⟩
          rintro (h | ⟨-, -, hle, -⟩) <;> omega
        · rw [if_neg hlong]
          by_cases hcomplete : complete = true
          · rw [if_pos hcomplete]
            exact .inl ⟨_, rfl, rfl, hp, hcomplete, rfl, by omega⟩
          · rw [if_neg hcomplete]
            have htransient : Transient limit (.response 200 contentEncoding chunks complete) :=
              .inr ⟨rfl, hp, Nat.not_lt.1 hlong, Bool.not_eq_true _ ▸ hcomplete⟩
            exact .inr ⟨_, rfl, _, _, _, rfl, by simpa using htransient⟩
      · rw [if_pos hp]
        refine .inr ⟨_, rfl, fails_failure ?_ _ _⟩
        rintro (h | ⟨-, hp', -⟩)
        · omega
        · exact hp hp'

theorem get_eq_ok {limit : Nat} {body : List UInt8} {reply : Reply} :
    get limit reply = .ok body ↔ Delivers limit body reply := by
  constructor
  · intro h
    rcases get_spec limit reply with ⟨body', hget, hbody⟩ | ⟨e, hget, -⟩
    · cases h.symm.trans hget
      exact hbody
    · cases h.symm.trans hget
  · intro h
    cases reply with
    | unreachable => exact h.elim
    | response status contentEncoding chunks complete =>
      obtain ⟨rfl, hp, rfl, rfl, hfits⟩ := h
      show (if ¬ Plain contentEncoding then _ else collect limit [] chunks true) = _
      rw [if_neg (not_not.2 hp), collect_eq limit [] (Nat.zero_le _), if_neg (by simpa using hfits), if_pos rfl,
        List.nil_append]

/-! ### Addresses -/

/-- The address names the host and the segments of the path, and nothing else. -/
def Goes (url host : Text) (path : List Text) : Prop :=
  ∃ rest, urlsplit url = ⟨"https".toList, host, '/' :: rest, [], []⟩ ∧ rest.splitOn '/' = path

/-- No character ends a segment or is removed from an address. -/
def Clean (part : Text) : Prop := ∀ c ∈ part, c ∉ ['/', '?', '#', '\t', '\r', '\n']

theorem Clean.ne {part : Text} (h : Clean part) {c : Char} (hc : c ∈ part) :
    c ≠ '/' ∧ c ≠ '?' ∧ c ≠ '#' ∧ c ∉ ['\t', '\r', '\n'] := by
  have hno := h c hc
  simp only [List.mem_cons, List.not_mem_nil, or_false, not_or] at hno ⊢
  exact ⟨hno.1, hno.2.1, hno.2.2.1, hno.2.2.2⟩

theorem mem_intercalate {path : List Text} {c : Char} (h : c ∈ ['/'].intercalate path) :
    c = '/' ∨ ∃ part ∈ path, c ∈ part := by
  induction path with
  | nil => simp at h
  | cons part path ih =>
    cases path with
    | nil => exact .inr ⟨part, List.mem_cons_self, by simpa using h⟩
    | cons next path =>
      rw [List.intercalate_cons_cons, List.mem_append, List.mem_append, List.mem_singleton] at h
      rcases h with (h | h) | h
      · exact .inr ⟨part, List.mem_cons_self, h⟩
      · exact .inl h
      · exact (ih h).imp_right fun ⟨q, hq, hc⟩ => ⟨q, List.mem_cons_of_mem _ hq, hc⟩

theorem goes_urlOf {host : Text} {path : List Text} (hh : Clean host) (hp : ∀ part ∈ path, Clean part) (hne : path ≠ []) :
    Goes (urlOf host path) host path := by
  refine ⟨['/'].intercalate path, ?_, List.splitOn_intercalate '/' (fun part hpart hc => (hp part hpart |>.ne hc).1 rfl) hne⟩
  set rest : Text := '/' :: ['/'].intercalate path with hrest
  have hclean : ∀ c ∈ rest, c ≠ '?' ∧ c ≠ '#' ∧ c ∉ ['\t', '\r', '\n'] := by
    intro c hc
    rcases List.mem_cons.1 hc with rfl | hc
    · decide
    · rcases mem_intercalate hc with rfl | ⟨part, hpart, hc⟩
      · decide
      · exact ((hp part hpart).ne hc).2
  have hurl : urlOf host path = ['h', 't', 't', 'p', 's'] ++ (':' :: '/' :: '/' :: (host ++ rest)) := by
    unfold urlOf scheme
    rw [← hrest]
    simp
  have hdrop : (urlOf host path).dropWhile (·.toNat ≤ 32) = urlOf host path := by
    rw [hurl]
    exact List.dropWhile_cons_of_neg (by decide)
  have hfilter : (urlOf host path).filter (· ∉ ['\t', '\r', '\n']) = urlOf host path := by
    rw [List.filter_eq_self, hurl]
    intro c hc
    refine decide_eq_true ?_
    simp only [List.mem_append, List.mem_cons] at hc
    rcases hc with hc | hc | hc | hc | hc | hc
    · have hall : ['h', 't', 't', 'p', 's'].all (· ∉ ['\t', '\r', '\n']) = true := by decide
      exact of_decide_eq_true (List.all_eq_true.1 hall c (by simpa using hc))
    · rw [hc]
      decide
    · rw [hc]
      decide
    · rw [hc]
      decide
    · exact (hh.ne hc).2.2.2
    · exact (hclean c hc).2.2
  have hscheme : splitScheme (urlOf host path) = (['h', 't', 't', 'p', 's'], '/' :: '/' :: (host ++ rest)) := by
    have hspan : (['h', 't', 't', 'p', 's'] ++ ':' :: '/' :: '/' :: (host ++ rest)).span (· ≠ ':') =
        (['h', 't', 't', 'p', 's'], ':' :: '/' :: '/' :: (host ++ rest)) :=
      span_eq (by decide) (by simp)
    unfold splitScheme
    rw [hurl, hspan]
    exact if_pos (by decide)
  have hnetloc : splitNetloc ('/' :: '/' :: (host ++ rest)) = (host, rest) := by
    refine span_eq (List.all_eq_true.2 fun c hc => decide_eq_true ?_) (by simp [hrest])
    have hno := hh.ne hc
    simp [hno.1, hno.2.1, hno.2.2.1]
  have hfragment : rest.span (· ≠ '#') = (rest, []) := by
    have hspan := span_eq (t := []) (List.all_eq_true.2 fun c hc => decide_eq_true (hclean c hc).2.1) (by simp)
    rwa [List.append_nil] at hspan
  have hquery : rest.span (· ≠ '?') = (rest, []) := by
    have hspan := span_eq (t := []) (List.all_eq_true.2 fun c hc => decide_eq_true (hclean c hc).1) (by simp)
    rwa [List.append_nil] at hspan
  unfold urlsplit
  rw [hdrop, hfilter]
  dsimp only
  rw [hscheme]
  dsimp only
  rw [hnetloc]
  dsimp only
  rw [hfragment]
  dsimp only
  rw [hquery]
  rfl

theorem Clean.of_segment {part : Text} (h : Segment part) : Clean part := by
  intro c hc
  obtain ⟨hslash, hq, hf, ht, hr, hn, -⟩ := pattern_ne (h.pattern c hc)
  simp [hslash, hq, hf, ht, hr, hn]

theorem proper_safe : Percent.Proper Safe := by
  intro b hb
  simp only [Safe, List.mem_cons, List.not_mem_nil, or_false] at hb
  omega

/-- A quoted branch is one segment, and what it quotes is read back. -/
theorem clean_quoted (branch : Text) : Clean (quoted branch) := by
  intro c hc
  have hpattern : PatternChar c ∨ c = '%' ∨ c = '~' := by
    rcases Percent.mem_quote hc with ⟨b, -, hb, rfl⟩ | hc | hc
    · have hlt : b.toNat < 256 := b.toNat_lt
      have hval : (Char.ofNat b.toNat).toNat = b.toNat := Framing.val_ofNat (.inl (by omega))
      simp only [Safe, List.mem_cons, List.not_mem_nil, or_false] at hb
      by_cases htilde : b.toNat = 126
      · exact .inr (.inr (by rw [htilde]))
      · refine .inl (patternChar_iff.2 ?_)
        rw [hval]
        omega
    · exact .inr (.inl hc)
    · exact .inl (.inl hc)
  rcases hpattern with h | rfl | rfl
  · obtain ⟨hslash, hq, hf, ht, hr, hn, -⟩ := pattern_ne h
    simp [hslash, hq, hf, ht, hr, hn]
  · decide
  · decide

theorem unquote_quoted (branch : Text) : Percent.unquote (quoted branch) = Framing.encode branch :=
  Percent.unquote_quote proper_safe _

theorem goes_repository {owner name : Text} (ho : Segment owner) (hn : Segment name) :
    Goes (repositoryRequest owner name).url api (repositoryPath owner name) := by
  refine goes_urlOf (.of_segment (by decide)) (fun part hpart => ?_) (List.cons_ne_nil _ _)
  simp only [repositoryPath, List.mem_cons, List.not_mem_nil, or_false] at hpart
  rcases hpart with rfl | rfl | rfl
  · exact .of_segment (by decide)
  · exact .of_segment ho
  · exact .of_segment hn

theorem goes_commit {owner name : Text} (ho : Segment owner) (hn : Segment name) (branch : Text) :
    Goes (commitRequest owner name branch).url api (commitPath owner name branch) := by
  refine goes_urlOf (.of_segment (by decide)) (fun part hpart => ?_) (List.cons_ne_nil _ _)
  simp only [commitPath, List.mem_cons, List.not_mem_nil, or_false] at hpart
  rcases hpart with rfl | rfl | rfl | rfl | rfl
  · exact .of_segment (by decide)
  · exact .of_segment ho
  · exact .of_segment hn
  · exact .of_segment (by decide)
  · exact clean_quoted branch

/-! ### Sources -/

/-- What is asked for and stored in the end. -/
structure WellFormed (source : RepositorySource) : Prop where
  owner : Segment source.owner
  name : Segment source.name
  letters : lower source.owner = source.owner ∧ lower source.name = source.name
  githubId : 0 < source.githubId
  branch : 1 ≤ source.branch.length ∧ source.branch.length ≤ 255
  sha : Sha source.sha

theorem Sha.clean {s : Text} (h : Sha s) : Clean s := by
  intro c hc
  have hhex := h.2 c hc
  have hpattern : PatternChar c := by
    rw [patternChar_iff]
    unfold HexChar at hhex
    omega
  obtain ⟨hslash, hq, hf, ht, hr, hn, -⟩ := pattern_ne hpattern
  simp [hslash, hq, hf, ht, hr, hn]

theorem goes_archive (c : Client α) {source : RepositorySource} (h : WellFormed source) :
    Goes (c.archiveRequest source).url codeload (archivePath source) := by
  refine goes_urlOf (.of_segment (by decide)) (fun part hpart => ?_) (List.cons_ne_nil _ _)
  simp only [archivePath, List.mem_cons, List.not_mem_nil, or_false] at hpart
  rcases hpart with rfl | rfl | rfl | rfl
  · exact .of_segment h.owner
  · exact .of_segment h.name
  · exact .of_segment (by decide)
  · exact h.sha.clean

theorem Metadata.validate_some {v : Value α} {metadata : Metadata} (h : Metadata.validate v = some metadata) :
    0 < metadata.id ∧ 1 ≤ metadata.defaultBranch.length ∧ metadata.defaultBranch.length ≤ 255 := by
  unfold Metadata.validate at h
  split at h
  · simp only [Option.bind_eq_bind, Option.bind_eq_some_iff] at h
    obtain ⟨id, -, isPrivate, -, fullName, -, defaultBranch, -, h⟩ := h
    split at h
    · cases h
      assumption
    · cases h
  · cases h

theorem commitSha_some {v : Value α} {sha : Text} (h : commitSha v = some sha) : Sha sha := by
  unfold commitSha at h
  split at h
  · exact of_decide_eq_true (Option.filter_eq_some_iff.1 h).2
  · cases h

theorem parse_segments {value owner name : Text} (h : parseRepositoryUrl value = some (owner, name)) :
    Segment owner ∧ Segment name ∧ lower owner = owner ∧ lower name = name := by
  obtain ⟨first, second, ha, he⟩ := parse_eq_some.1 h
  obtain ⟨rfl, rfl⟩ := Prod.mk.inj he
  exact ⟨segment_lower ha.first, segment_lower (segment_removeGit ha.second ha.rest), lower_lower _, lower_lower _⟩

/-! ### What is fetched -/

section Fetch
variable (c : Client α) (answer : Nat → Request → Reply) (owner name : Text)

/-- The requests that may be made, in their order. -/
inductive Leads : List Request → Prop
  | repository : Leads [repositoryRequest owner name]
  | commit {o n branch : Text} : Segment o → Segment n → 1 ≤ branch.length ∧ branch.length ≤ 255 →
      Leads [repositoryRequest owner name, commitRequest o n branch]
  | archive {source : RepositorySource} : WellFormed source →
      Leads [repositoryRequest owner name, commitRequest source.owner source.name source.branch,
        c.archiveRequest source]

/-- Whole responses to the two requests say what the source is. -/
inductive Resolved (source : RepositorySource) : Prop
  | mk {body body' : List UInt8} {metadata : Metadata} :
      Delivers (1024 * 1024) body (answer 0 (repositoryRequest owner name)) →
      (c.json body).bind Metadata.validate = some metadata → metadata.isPrivate = false →
      parseRepositoryUrl ("https://github.com/".toList ++ metadata.fullName) = some (source.owner, source.name) →
      metadata.id = source.githubId → metadata.defaultBranch = source.branch →
      Delivers (4 * 1024 * 1024) body' (answer 1 (commitRequest source.owner source.name source.branch)) →
      (c.json body').bind commitSha = some source.sha → Resolved source

/-- An import failure that is worth another attempt exactly if the last reply is. -/
def FailsAt (requests : List Request) (e : Raised) : Prop :=
  ∃ before last, requests = before ++ [last] ∧ Fails (Transient last.limit (answer before.length last)) e

variable {c answer owner name}

theorem Resolved.wellFormed {source : RepositorySource} (h : Resolved c answer owner name source) :
    WellFormed source := by
  obtain ⟨-, hvalid, -, hparse, hid, hbranch, -, hsha⟩ := h
  obtain ⟨_, -, hmetadata⟩ := Option.bind_eq_some_iff.1 hvalid
  obtain ⟨_, -, hcommit⟩ := Option.bind_eq_some_iff.1 hsha
  obtain ⟨hpositive, hmin, hmax⟩ := Metadata.validate_some hmetadata
  obtain ⟨howner, hname, hletters⟩ := parse_segments hparse
  exact ⟨howner, hname, hletters, hid ▸ hpositive, hbranch ▸ ⟨hmin, hmax⟩, commitSha_some hcommit⟩

theorem Delivers.not_transient {limit : Nat} {body : List UInt8} {reply : Reply} (h : Delivers limit body reply) :
    ¬ Transient limit reply := by
  cases reply with
  | unreachable => exact h.elim
  | response status contentEncoding chunks complete =>
    obtain ⟨rfl, -, rfl, -, -⟩ := h
    rintro (h | ⟨-, -, -, h⟩)
    · omega
    · cases h

theorem Delivers.length_le {limit : Nat} {body : List UInt8} {reply : Reply} (h : Delivers limit body reply) :
    body.length ≤ limit := by
  cases reply with
  | unreachable => exact h.elim
  | response status contentEncoding chunks complete => exact h.2.2.2.2

theorem FailsAt.failure (before : List Request) {last : Request} {body : List UInt8}
    (h : Delivers last.limit body (answer before.length last)) (code message : String) :
    FailsAt answer (before ++ [last]) (failure code message) :=
  ⟨before, last, rfl, fails_failure h.not_transient code message⟩

/-- What becomes of `resolve`. -/
theorem resolve_spec (c : Client α) (answer : Nat → Request → Reply) (owner name : Text) :
    (∃ source, c.resolve answer owner name =
        ([repositoryRequest owner name, commitRequest source.owner source.name source.branch], .ok source) ∧
      Resolved c answer owner name source) ∨
      ∃ requests e, c.resolve answer owner name = (requests, .error e) ∧ Leads c owner name requests ∧
        FailsAt answer requests e := by
  unfold Client.resolve
  dsimp only
  rcases get_spec (repositoryRequest owner name).limit (answer 0 (repositoryRequest owner name)) with
    ⟨body, hget, hbody⟩ | ⟨e, hget, he⟩
  case inr =>
    rw [hget]
    exact .inr ⟨_, e, rfl, .repository, [], _, rfl, he⟩
  rw [hget]
  dsimp only
  have hfirst : ∀ code message, FailsAt answer [repositoryRequest owner name] (failure code message) :=
    FailsAt.failure [] hbody
  cases hvalid : (c.json body).bind Metadata.validate with
  | none => exact .inr ⟨_, _, rfl, .repository, hfirst _ _⟩
  | some metadata =>
    dsimp only
    split
    · exact .inr ⟨_, _, rfl, .repository, hfirst _ _⟩
    rename_i hpublic
    cases hparse : parseRepositoryUrl ("https://github.com/".toList ++ metadata.fullName) with
    | none => exact .inr ⟨_, _, rfl, .repository, hfirst _ _⟩
    | some found =>
      obtain ⟨o, n⟩ := found
      obtain ⟨ho, hn, -⟩ := parse_segments hparse
      obtain ⟨_, -, hmetadata⟩ := Option.bind_eq_some_iff.1 hvalid
      have hleads : Leads c owner name [repositoryRequest owner name, commitRequest o n metadata.defaultBranch] :=
        .commit ho hn (Metadata.validate_some hmetadata).2
      dsimp only
      rcases get_spec (commitRequest o n metadata.defaultBranch).limit
        (answer 1 (commitRequest o n metadata.defaultBranch)) with ⟨body', hget', hbody'⟩ | ⟨e, hget', he⟩
      · rw [hget']
        dsimp only
        cases hsha : (c.json body').bind commitSha with
        | none => exact .inr ⟨_, _, rfl, hleads, FailsAt.failure [_] hbody' _ _⟩
        | some sha =>
          exact .inl ⟨⟨o, n, metadata.id, metadata.defaultBranch, sha⟩, rfl,
            .mk hbody hvalid (Bool.not_eq_true _ ▸ hpublic) hparse rfl rfl hbody' hsha⟩
      · rw [hget']
        exact .inr ⟨_, e, rfl, hleads, [_], _, rfl, he⟩

/-- The address of a request, with its limit. -/
inductive Routed (c : Client α) (r : Request) : Prop
  | repository {o n : Text} : Segment o → Segment n → Goes r.url api (repositoryPath o n) → r.limit = 1024 * 1024 →
      Routed c r
  | commit {o n branch : Text} : Segment o → Segment n → Goes r.url api (commitPath o n branch) →
      Percent.unquote (quoted branch) = Framing.encode branch → r.limit = 4 * 1024 * 1024 → Routed c r
  | archive {source : RepositorySource} : WellFormed source → Goes r.url codeload (archivePath source) →
      r.limit = c.archiveLimit → Routed c r

theorem Leads.routed {requests : List Request} (h : Leads c owner name requests) (ho : Segment owner)
    (hn : Segment name) : ∀ r ∈ requests, Routed c r := by
  have hfirst : Routed c (repositoryRequest owner name) := .repository ho hn (goes_repository ho hn) rfl
  intro r hr
  cases h with
  | repository => exact List.mem_singleton.1 hr ▸ hfirst
  | commit ho' hn' _ =>
    simp only [List.mem_cons, List.not_mem_nil, or_false] at hr
    rcases hr with rfl | rfl
    · exact hfirst
    · exact .commit ho' hn' (goes_commit ho' hn' _) (unquote_quoted _) rfl
  | archive hs =>
    simp only [List.mem_cons, List.not_mem_nil, or_false] at hr
    rcases hr with rfl | rfl | rfl
    · exact hfirst
    · exact .commit hs.owner hs.name (goes_commit hs.owner hs.name _) (unquote_quoted _) rfl
    · exact .archive hs (goes_archive c hs) rfl

theorem Resolved.resolve {source : RepositorySource} (h : Resolved c answer owner name source) :
    c.resolve answer owner name =
      ([repositoryRequest owner name, commitRequest source.owner source.name source.branch], .ok source) := by
  obtain @⟨body, body', metadata, hbody, hvalid, hpublic, hparse, hid, hbranch, hbody', hsha⟩ := h
  have hfirst : get (repositoryRequest owner name).limit (answer 0 (repositoryRequest owner name)) = .ok body :=
    get_eq_ok.2 hbody
  have hsecond : get (commitRequest source.owner source.name source.branch).limit
      (answer 1 (commitRequest source.owner source.name source.branch)) = .ok body' := get_eq_ok.2 hbody'
  unfold Client.resolve
  dsimp only
  rw [hfirst]
  dsimp only
  rw [hvalid]
  dsimp only
  rw [if_neg (by simp [hpublic]), hparse]
  dsimp only
  rw [hbranch, hsecond]
  dsimp only
  rw [hsha, hid]

/-- What is fetched: the source and the archive that GitHub's whole answers name, and nothing else. -/
structure Fetched (c : Client α) (answer : Nat → Request → Reply) (owner name : Text) (requests : List Request)
    (result : Except Raised (RepositorySource × List UInt8)) : Prop where
  leads : Leads c owner name requests
  delivered : ∀ source body, result = .ok (source, body) ↔
    Resolved c answer owner name source ∧ Delivers c.archiveLimit body (answer 2 (c.archiveRequest source))
  wellFormed : ∀ source body, result = .ok (source, body) → WellFormed source ∧ body.length ≤ c.archiveLimit
  failed : ∀ e, result = .error e → FailsAt answer requests e

/-- `fetch`, whatever GitHub answers. -/
theorem fetch_spec (c : Client α) (answer : Nat → Request → Reply) (owner name : Text) :
    Fetched c answer owner name (c.fetch answer owner name).1 (c.fetch answer owner name).2 := by
  have hdelivered : ∀ source body, (c.fetch answer owner name).2 = .ok (source, body) ↔
      Resolved c answer owner name source ∧ Delivers c.archiveLimit body (answer 2 (c.archiveRequest source)) := by
    intro source body
    unfold Client.fetch
    constructor
    · intro h
      rcases resolve_spec c answer owner name with ⟨found, hr, hfound⟩ | ⟨requests, e, hr, -⟩
      · rw [hr] at h
        dsimp only at h
        cases hget : c.download (answer 2) found with
        | ok body' =>
          rw [hget] at h
          cases h
          exact ⟨hfound, get_eq_ok.1 hget⟩
        | error e =>
          rw [hget] at h
          cases h
      · rw [hr] at h
        cases h
    · rintro ⟨hr, hbody⟩
      rw [hr.resolve]
      have hget : c.download (answer 2) source = .ok body := get_eq_ok.2 hbody
      dsimp only
      rw [hget]
      rfl
  refine ⟨?_, hdelivered, fun source body h => ?_, ?_⟩
  · unfold Client.fetch
    rcases resolve_spec c answer owner name with ⟨source, hr, hsource⟩ | ⟨requests, e, hr, hleads, -⟩
    · rw [hr]
      exact .archive hsource.wellFormed
    · rw [hr]
      exact hleads
  · obtain ⟨hr, hbody⟩ := (hdelivered source body).1 h
    exact ⟨hr.wellFormed, hbody.length_le⟩
  · unfold Client.fetch
    rcases resolve_spec c answer owner name with ⟨source, hr, hsource⟩ | ⟨requests, e, hr, -, hfails⟩
    · rw [hr]
      intro e he
      dsimp only at he
      rcases get_spec c.archiveLimit (answer 2 (c.archiveRequest source)) with ⟨body, hget, -⟩ | ⟨e', hget, hfails⟩
      · rw [show c.download (answer 2) source = .ok body from hget] at he
        cases he
      · rw [show c.download (answer 2) source = .error e' from hget] at he
        cases he
        exact ⟨[_, _], _, rfl, hfails⟩
    · rw [hr]
      rintro e' ⟨⟩
      exact hfails

end Fetch

end GitHub
end RepoPilot
