import RepoPilot.Generation

/-! # Repository addresses

`parseRepositoryUrl` reads the owner and the name of a GitHub repository from its address. One `.git` is cut
from the name, in this letter case only, before the letters are lowered; so the result is not always read back
as itself. -/

namespace RepoPilot
namespace Urls

/-! ### `urlsplit` -/

structure Split where
  scheme : Text
  netloc : Text
  path : Text
  query : Text
  fragment : Text

def lower (s : Text) : Text := s.map Char.toLower

def SchemeChar (c : Char) : Prop := c.isAlphanum = true ∨ c ∈ ['+', '-', '.']

instance : DecidablePred SchemeChar := fun c => inferInstanceAs (Decidable (c.isAlphanum = true ∨ _))

/-- The scheme, and what follows the colon. -/
def splitScheme (url : Text) : Text × Text :=
  match url.span (· ≠ ':') with
  | (c :: scheme, _ :: rest) =>
    if c.isAlpha = true ∧ (c :: scheme).all (SchemeChar ·) = true then (lower (c :: scheme), rest) else ([], url)
  | _ => ([], url)

/-- `_splitnetloc`, after two slashes. -/
def splitNetloc : Text → Text × Text
  | '/' :: '/' :: rest => rest.span (· ∉ ['/', '?', '#'])
  | url => ([], url)

/-- `urlsplit`. A location that it refuses is not `github.com` either. -/
def urlsplit (value : Text) : Split :=
  let url := (value.dropWhile (·.toNat ≤ 32)).filter (· ∉ ['\t', '\r', '\n'])
  let (scheme, url) := splitScheme url
  let (netloc, url) := splitNetloc url
  let (url, fragment) := url.span (· ≠ '#')
  let (path, query) := url.span (· ≠ '?')
  ⟨scheme, netloc, path, query.drop 1, fragment.drop 1⟩

/-! ### `parse_repository_url` -/

/-- `[A-Za-z0-9_.-]`. -/
def PatternChar (c : Char) : Prop := c.isAlphanum = true ∨ c ∈ ['_', '.', '-']

instance : DecidablePred PatternChar := fun c => inferInstanceAs (Decidable (c.isAlphanum = true ∨ _))

/-- A segment that matches the pattern and is not a dot segment. -/
def Segment (part : Text) : Prop :=
  1 ≤ part.length ∧ part.length ≤ 100 ∧ part.all (PatternChar ·) = true ∧ part ≠ ['.'] ∧ part ≠ ['.', '.']

instance : DecidablePred Segment := fun part => inferInstanceAs (Decidable (1 ≤ part.length ∧ _))

/-- `path.strip("/")`. -/
def stripSlashes (path : Text) : Text := (path.dropWhile (· = '/')).rdropWhile (· = '/')

/-- The segments of the path. -/
def segments (value : Text) : List Text := (stripSlashes (urlsplit (strip value)).path).splitOn '/'

def git : Text := ".git".toList

/-- `name[:-4]`, if the name ends in `.git`. -/
def removeGit (name : Text) : Text := if git <:+ name then name.take (name.length - 4) else name

/-- Only the path may vary. -/
def Plain (url : Split) : Prop :=
  url.scheme = "https".toList ∧ url.netloc = "github.com".toList ∧ url.query = [] ∧ url.fragment = []

instance : DecidablePred Plain := fun url => inferInstanceAs (Decidable (url.scheme = "https".toList ∧ _))

/-- The owner and the name, of the two segments. -/
def ofSegments : List Text → Option (Text × Text)
  | [owner, name] =>
    if Segment owner ∧ Segment name then
      if removeGit name = [] ∨ removeGit name = ['.'] ∨ removeGit name = ['.', '.'] then none
      else some (lower owner, lower (removeGit name))
    else none
  | _ => none

/-- `parse_repository_url`; `none` is a `ValueError`. -/
def parseRepositoryUrl (value : Text) : Option (Text × Text) :=
  if Plain (urlsplit (strip value)) then ofSegments (segments value) else none

/-- `RepositoryCreate.validate_url`. -/
def address (r : Text × Text) : Text := "https://github.com/".toList ++ r.1 ++ '/' :: r.2

/-! ### Letters -/

theorem toNat_toLower (c : Char) : c.toLower.toNat = if 65 ≤ c.toNat ∧ c.toNat ≤ 90 then c.toNat + 32 else c.toNat := by
  unfold Char.toLower
  by_cases h : c.val ≥ 'A'.val ∧ c.val ≤ 'Z'.val
  · have hc : 65 ≤ c.toNat ∧ c.toNat ≤ 90 := h
    rw [dif_pos h, if_pos hc]
    change (c.val + ('a'.val - 'A'.val)).toNat = c.val.toNat + 32
    have hval : c.val.toNat ≤ 90 := hc.2
    rw [UInt32.toNat_add]
    change (c.val.toNat + 32) % 2 ^ 32 = _
    omega
  · have hc : ¬ (65 ≤ c.toNat ∧ c.toNat ≤ 90) := h
    rw [dif_neg h, if_neg hc]

theorem toLower_toLower (c : Char) : c.toLower.toLower = c.toLower := by
  have hc := toNat_toLower c
  refine Char.toNat_inj.1 ?_
  rw [toNat_toLower c.toLower]
  split at hc <;> rw [if_neg (by omega)]

/-- Only letters become letters. -/
theorem toLower_eq {c d : Char} (hd : ¬ (97 ≤ d.toNat ∧ d.toNat ≤ 122)) (hd' : ¬ (65 ≤ d.toNat ∧ d.toNat ≤ 90)) :
    c.toLower = d ↔ c = d := by
  rw [← Char.toNat_inj, ← Char.toNat_inj (c := c), toNat_toLower]
  split <;> omega

theorem lower_lower (s : Text) : lower (lower s) = lower s := by
  unfold lower
  rw [List.map_map]
  exact List.map_congr_left fun c _ => toLower_toLower c

theorem length_lower (s : Text) : (lower s).length = s.length := List.length_map _

theorem isAlphanum_iff {c : Char} :
    c.isAlphanum = true ↔ 65 ≤ c.toNat ∧ c.toNat ≤ 90 ∨ 97 ≤ c.toNat ∧ c.toNat ≤ 122 ∨ 48 ≤ c.toNat ∧ c.toNat ≤ 57 := by
  have hle : ∀ {a b : Char}, a ≤ b ↔ a.toNat ≤ b.toNat := Iff.rfl
  simp only [Char.isAlphanum, Char.isAlpha, Char.isUpper, Char.isLower, Char.isDigit, Bool.or_eq_true, Bool.and_eq_true,
    decide_eq_true_eq, or_assoc]
  rfl

theorem patternChar_iff {c : Char} :
    PatternChar c ↔ 65 ≤ c.toNat ∧ c.toNat ≤ 90 ∨ 97 ≤ c.toNat ∧ c.toNat ≤ 122 ∨ 48 ≤ c.toNat ∧ c.toNat ≤ 57 ∨
      c.toNat = 95 ∨ c.toNat = 46 ∨ c.toNat = 45 := by
  unfold PatternChar
  simp only [isAlphanum_iff, List.mem_cons, List.not_mem_nil, or_false, ← Char.toNat_inj, or_assoc]
  rfl

theorem patternChar_toLower {c : Char} (h : PatternChar c) : PatternChar c.toLower := by
  rw [patternChar_iff] at h ⊢
  rw [toNat_toLower]
  split <;> omega

theorem lower_dot {s : Text} : lower s = ['.'] ↔ s = ['.'] := by
  unfold lower
  rw [List.map_eq_singleton_iff]
  constructor
  · rintro ⟨c, rfl, hc⟩
    rw [(toLower_eq (by decide) (by decide)).1 hc]
  · rintro rfl
    exact ⟨'.', rfl, rfl⟩

theorem lower_dots {s : Text} : lower s = ['.', '.'] ↔ s = ['.', '.'] := by
  unfold lower
  rw [List.map_eq_cons_iff]
  constructor
  · rintro ⟨c, rest, rfl, hc, hrest⟩
    rw [(toLower_eq (by decide) (by decide)).1 hc, lower_dot.1 hrest]
  · rintro rfl
    exact ⟨'.', ['.'], rfl, rfl, rfl⟩

theorem segment_lower {part : Text} (h : Segment part) : Segment (lower part) := by
  obtain ⟨hmin, hmax, hchars, hdot, hdots⟩ := h
  refine ⟨by rwa [length_lower], by rwa [length_lower], List.all_eq_true.2 fun c hc => ?_,
    fun h => hdot (lower_dot.1 h), fun h => hdots (lower_dots.1 h)⟩
  obtain ⟨d, hd, rfl⟩ := List.mem_map.1 hc
  exact decide_eq_true (patternChar_toLower (of_decide_eq_true (List.all_eq_true.1 hchars d hd)))

/-! ### The address of a pair -/

theorem span_eq {α : Type} {p : α → Bool} {s t : List α} (hs : s.all p = true)
    (ht : ∀ a, t.head? = some a → p a = false) : (s ++ t).span p = (s, t) := by
  rw [List.span_eq_takeWhile_dropWhile]
  have htake : t.takeWhile p = [] := by
    cases t with
    | nil => rfl
    | cons a t => exact List.takeWhile_cons_of_neg (by simp [ht a rfl])
  have hdrop : t.dropWhile p = t := by
    cases t with
    | nil => rfl
    | cons a t => exact List.dropWhile_cons_of_neg (by simp [ht a rfl])
  have hall : ∀ a ∈ s, p a = true := List.all_eq_true.1 hs
  rw [List.takeWhile_append_of_pos hall, List.dropWhile_append_of_pos hall, htake, hdrop, List.append_nil]

theorem strip_eq {s : Text} (hfirst : ∀ c, s.head? = some c → ¬ IsSpace c)
    (hlast : ∀ c, s.getLast? = some c → ¬ IsSpace c) :
    strip s = s := by
  unfold strip
  have hdrop : s.dropWhile (IsSpace ·) = s := by
    cases s with
    | nil => rfl
    | cons c s => exact List.dropWhile_cons_of_neg (by simp [hfirst c rfl])
  rw [hdrop]
  cases hr : s.reverse with
  | nil => rw [List.dropWhile_nil, List.reverse_nil, List.reverse_eq_nil_iff.1 hr]
  | cons c rest =>
    have hc : ¬ IsSpace c := hlast c (by rw [← List.head?_reverse, hr]; rfl)
    rw [List.dropWhile_cons_of_neg (by simpa using hc), ← hr, List.reverse_reverse]

/-- No character of a pattern delimits anything. -/
theorem pattern_ne {c : Char} (h : PatternChar c) :
    c ≠ '/' ∧ c ≠ '?' ∧ c ≠ '#' ∧ c ≠ '\t' ∧ c ≠ '\r' ∧ c ≠ '\n' ∧ ¬ IsSpace c := by
  rw [patternChar_iff] at h
  simp only [ne_eq, ← Char.toNat_inj]
  refine ⟨?_, ?_, ?_, ?_, ?_, ?_, ?_⟩
  case _ => change ¬ c.toNat = 47; omega
  case _ => change ¬ c.toNat = 63; omega
  case _ => change ¬ c.toNat = 35; omega
  case _ => change ¬ c.toNat = 9; omega
  case _ => change ¬ c.toNat = 13; omega
  case _ => change ¬ c.toNat = 10; omega
  case _ =>
    unfold IsSpace
    simp only [List.mem_cons, List.not_mem_nil, or_false]
    omega

variable {owner name : Text}

theorem https_eq : "https".toList = ['h', 't', 't', 'p', 's'] := rfl

theorem host_eq : "github.com".toList = ['g', 'i', 't', 'h', 'u', 'b', '.', 'c', 'o', 'm'] := rfl

theorem address_eq :
    address (owner, name) =
      ['h', 't', 't', 'p', 's'] ++ ([':', '/', '/'] ++ (['g', 'i', 't', 'h', 'u', 'b', '.', 'c', 'o', 'm'] ++
        ('/' :: owner ++ '/' :: name))) := rfl

/-- The address of a pair splits into its parts. -/
theorem urlsplit_address (ho : ∀ c ∈ owner, PatternChar c) (hn : ∀ c ∈ name, PatternChar c) :
    urlsplit (address (owner, name)) = ⟨"https".toList, "github.com".toList, '/' :: owner ++ '/' :: name, [], []⟩ := by
  have hpath : ∀ c ∈ '/' :: owner ++ '/' :: name, c = '/' ∨ PatternChar c := by
    intro c hc
    simp only [List.cons_append, List.mem_cons, List.mem_append] at hc
    rcases hc with h | h | h | h
    · exact .inl h
    · exact .inr (ho c h)
    · exact .inl h
    · exact .inr (hn c h)
  have hclean : ∀ c ∈ '/' :: owner ++ '/' :: name, c ∉ ['\t', '\r', '\n'] ∧ c ≠ '#' ∧ c ≠ '?' := by
    intro c hc
    rcases hpath c hc with rfl | hp
    · decide
    · obtain ⟨-, hq, hf, ht, hr, hnl, -⟩ := pattern_ne hp
      simp [hq, hf, ht, hr, hnl]
  have hdrop : (address (owner, name)).dropWhile (·.toNat ≤ 32) = address (owner, name) := by
    rw [address_eq]
    exact List.dropWhile_cons_of_neg (by decide)
  have hfilter : (address (owner, name)).filter (· ∉ ['\t', '\r', '\n']) = address (owner, name) := by
    rw [List.filter_eq_self, address_eq]
    intro c hc
    rw [← List.append_assoc, ← List.append_assoc, List.mem_append] at hc
    rcases hc with hc | hc
    · have hhost : (['h', 't', 't', 'p', 's'] ++ [':', '/', '/'] ++
          ['g', 'i', 't', 'h', 'u', 'b', '.', 'c', 'o', 'm']).all (· ∉ ['\t', '\r', '\n']) = true := by decide
      exact List.all_eq_true.1 hhost c hc
    · exact decide_eq_true (hclean c hc).1
  have hscheme : splitScheme (address (owner, name)) =
      (['h', 't', 't', 'p', 's'],
        '/' :: '/' :: (['g', 'i', 't', 'h', 'u', 'b', '.', 'c', 'o', 'm'] ++ ('/' :: owner ++ '/' :: name))) := by
    unfold splitScheme
    rw [address_eq, span_eq (by decide) (by rintro a ⟨⟩; decide)]
    exact if_pos (by decide)
  have hnetloc : splitNetloc ('/' :: '/' :: (['g', 'i', 't', 'h', 'u', 'b', '.', 'c', 'o', 'm'] ++
      ('/' :: owner ++ '/' :: name))) =
      (['g', 'i', 't', 'h', 'u', 'b', '.', 'c', 'o', 'm'], '/' :: owner ++ '/' :: name) :=
    span_eq (by decide) (by rintro a ⟨⟩; decide)
  have hfragment : ('/' :: owner ++ '/' :: name).span (· ≠ '#') = ('/' :: owner ++ '/' :: name, []) := by
    have hspan := span_eq (t := []) (List.all_eq_true.2 fun c hc => decide_eq_true (hclean c hc).2.1) nofun
    rwa [List.append_nil] at hspan
  have hquery : ('/' :: owner ++ '/' :: name).span (· ≠ '?') = ('/' :: owner ++ '/' :: name, []) := by
    have hspan := span_eq (t := []) (List.all_eq_true.2 fun c hc => decide_eq_true (hclean c hc).2.2) nofun
    rwa [List.append_nil] at hspan
  unfold urlsplit
  rw [hdrop, hfilter, https_eq, host_eq]
  dsimp only
  rw [hscheme]
  dsimp only
  rw [hnetloc]
  dsimp only
  rw [hfragment]
  dsimp only
  rw [hquery]
  rfl

theorem Segment.pattern {part : Text} (h : Segment part) : ∀ c ∈ part, PatternChar c := fun c hc =>
  of_decide_eq_true (List.all_eq_true.1 h.2.2.1 c hc)

theorem Segment.ne_nil {part : Text} (h : Segment part) : part ≠ [] := List.ne_nil_of_length_pos h.1

theorem Segment.no_slash {part : Text} (h : Segment part) :
    '/' ∉ part := fun hmem => (pattern_ne (h.pattern _ hmem)).1 rfl

/-- Slashes around two segments are cut. -/
theorem stripSlashes_pair (ho : Segment owner) (hn : Segment name) :
    stripSlashes ('/' :: owner ++ '/' :: name) = owner ++ '/' :: name := by
  have hfirst : (owner ++ '/' :: name).dropWhile (· = '/') = owner ++ '/' :: name := by
    cases howner : owner with
    | nil => exact absurd howner ho.ne_nil
    | cons c rest =>
      have hc : c ≠ '/' := fun he => ho.no_slash (howner ▸ he ▸ List.mem_cons_self)
      exact List.dropWhile_cons_of_neg (by simpa using hc)
  unfold stripSlashes
  rw [List.cons_append, List.dropWhile_cons_of_pos (by rfl), hfirst, List.rdropWhile_eq_self_iff]
  intro hne
  have hlast : (owner ++ '/' :: name).getLast hne = name.getLast hn.ne_nil := by
    rw [List.getLast_append_of_ne_nil _ (List.cons_ne_nil _ _), List.getLast_cons hn.ne_nil]
  rw [hlast, decide_eq_true_eq]
  intro he
  exact hn.no_slash (he ▸ List.getLast_mem hn.ne_nil)

/-- The address of a pair has its segments. -/
theorem segments_address (ho : Segment owner) (hn : Segment name) :
    Plain (urlsplit (strip (address (owner, name)))) ∧ segments (address (owner, name)) = [owner, name] := by
  have hstrip : strip (address (owner, name)) = address (owner, name) := by
    refine strip_eq ?_ ?_
    · rintro c ⟨⟩
      decide
    · intro c hc
      have hlast : (address (owner, name)).getLast? = name.getLast? := by
        unfold address
        rw [List.getLast?_append_of_ne_nil _ (List.cons_ne_nil _ _), List.getLast?_cons_of_ne_nil hn.ne_nil]
      rw [hlast] at hc
      exact (pattern_ne (hn.pattern c (List.mem_of_getLast? hc))).2.2.2.2.2.2
  unfold segments
  rw [hstrip, urlsplit_address ho.pattern hn.pattern]
  refine ⟨⟨rfl, rfl, rfl, rfl⟩, ?_⟩
  rw [stripSlashes_pair ho hn, List.splitOn_append_cons_self_of_not_mem ho.no_slash,
    List.splitOn_eq_singleton hn.no_slash]

/-! ### `.git` -/

theorem removeGit_length (name : Text) :
    (removeGit name).length = if git <:+ name then name.length - 4 else name.length := by
  unfold removeGit
  split
  · rw [List.length_take]
    omega
  · rfl

theorem git_length {name : Text} (h : git <:+ name) : 4 ≤ name.length := h.length_le

/-- What is left of a segment is one, unless it is nothing or dots. -/
theorem segment_removeGit (hn : Segment name)
    (h : ¬ (removeGit name = [] ∨ removeGit name = ['.'] ∨ removeGit name = ['.', '.'])) :
    Segment (removeGit name) := by
  obtain ⟨hnil, hdots⟩ := not_or.1 h
  obtain ⟨hdot, hdots⟩ := not_or.1 hdots
  have hinitial : removeGit name <+: name := by
    unfold removeGit
    split
    · exact List.take_prefix _ _
    · exact List.prefix_refl _
  refine ⟨List.length_pos_iff.2 hnil, hinitial.length_le.trans hn.2.1, List.all_eq_true.2 fun c hc => ?_, hdot, hdots⟩
  exact decide_eq_true (hn.pattern c (hinitial.subset hc))

/-- The two segments of an accepted address. -/
structure Accepted (value owner name : Text) : Prop where
  plain : Plain (urlsplit (strip value))
  segments : segments value = [owner, name]
  first : Segment owner
  second : Segment name
  rest : ¬ (removeGit name = [] ∨ removeGit name = ['.'] ∨ removeGit name = ['.', '.'])

theorem parse_eq_some {value : Text} {r : Text × Text} :
    parseRepositoryUrl value = some r ↔
      ∃ owner name, Accepted value owner name ∧ r = (lower owner, lower (removeGit name)) := by
  unfold parseRepositoryUrl
  constructor
  · intro h
    split at h
    · rename_i hplain
      unfold ofSegments at h
      split at h
      · rename_i owner name hsegments
        split at h
        · rename_i hs
          split at h
          · cases h
          · rename_i hrest
            cases h
            exact ⟨owner, name, ⟨hplain, hsegments, hs.1, hs.2, hrest⟩, rfl⟩
        · cases h
      · cases h
    · cases h
  · rintro ⟨owner, name, ha, rfl⟩
    rw [if_pos ha.plain, ha.segments]
    unfold ofSegments
    dsimp only
    rw [if_pos ⟨ha.first, ha.second⟩, if_neg ha.rest]

/-- The pair is read back as itself exactly if no further `.git` is cut. -/
theorem parse_address_iff (ho : Segment owner) (hn : Segment name) :
    parseRepositoryUrl (address (lower owner, lower name)) = some (lower owner, lower name) ↔ ¬ git <:+ lower name := by
  obtain ⟨hplain, hsegments⟩ := segments_address (segment_lower ho) (segment_lower hn)
  rw [parse_eq_some]
  constructor
  · rintro ⟨owner', name', ha, he⟩ hgit
    obtain ⟨rfl, hname⟩ := List.cons.inj (hsegments.symm.trans ha.segments)
    obtain rfl := List.head_eq_of_cons_eq hname
    have hlength := congrArg List.length (Prod.mk.inj he).2
    rw [length_lower (removeGit _), removeGit_length, if_pos hgit] at hlength
    have hfour := git_length hgit
    omega
  · intro hgit
    have hrest : removeGit (lower name) = lower name := if_neg hgit
    refine ⟨lower owner, lower name, ⟨hplain, hsegments, segment_lower ho, segment_lower hn, ?_⟩, ?_⟩
    · rw [hrest]
      rintro (h | h | h)
      · exact (segment_lower hn).ne_nil h
      · exact (segment_lower hn).2.2.2.1 h
      · exact (segment_lower hn).2.2.2.2 h
    · rw [hrest, lower_lower, lower_lower]

/-! ### Letter case -/

theorem dropWhile_lower (s : Text) : (lower s).dropWhile (· = '/') = lower (s.dropWhile (· = '/')) := by
  unfold lower
  rw [List.dropWhile_map]
  congr 1
  refine congrArg (List.dropWhile · s) (funext fun c => ?_)
  exact decide_eq_decide.2 (toLower_eq (by decide) (by decide))

theorem stripSlashes_lower (s : Text) : stripSlashes (lower s) = lower (stripSlashes s) := by
  unfold stripSlashes
  rw [dropWhile_lower]
  unfold List.rdropWhile
  have hreverse : ∀ t : Text, (lower t).reverse = lower t.reverse := fun t => List.map_reverse.symm
  rw [hreverse, dropWhile_lower, hreverse]

theorem splitOn_lower (s : Text) : (lower s).splitOn '/' = (s.splitOn '/').map lower := by
  induction s with
  | nil => rfl
  | cons c s ih =>
    have hslash : (c.toLower == '/') = (c == '/') := by
      rw [Bool.eq_iff_iff, beq_iff_eq, beq_iff_eq]
      exact toLower_eq (by decide) (by decide)
    change (c.toLower :: lower s).splitOn '/' = _
    rw [List.splitOn_cons_eq_if_modifyHead, List.splitOn_cons_eq_if_modifyHead, hslash, ih]
    split
    · rfl
    · cases s.splitOn '/' <;> rfl

/-- The paths differ in letter case only. -/
def SameLetters (value value' : Text) : Prop :=
  lower (urlsplit (strip value)).path = lower (urlsplit (strip value')).path

theorem SameLetters.segments {value value' : Text} (h : SameLetters value value') :
    (segments value).map lower = (segments value').map lower := by
  unfold Urls.segments
  rw [← splitOn_lower, ← splitOn_lower, ← stripSlashes_lower, ← stripSlashes_lower, h]

theorem lower_removeGit {name' : Text} (h : lower name = lower name') :
    lower (removeGit name) = lower (removeGit name') ↔ (git <:+ name ↔ git <:+ name') := by
  have hlength : name.length = name'.length := by rw [← length_lower name, h, length_lower]
  constructor
  · intro he
    have hcut := congrArg List.length he
    rw [length_lower, length_lower, removeGit_length, removeGit_length] at hcut
    by_cases hg : git <:+ name <;> by_cases hg' : git <:+ name'
    · exact iff_of_true hg hg'
    · have hfour := git_length hg
      rw [if_pos hg, if_neg hg'] at hcut
      omega
    · have hfour := git_length hg'
      rw [if_neg hg, if_pos hg'] at hcut
      omega
    · exact iff_of_false hg hg'
  · intro hiff
    unfold removeGit
    by_cases hg : git <:+ name
    · rw [if_pos hg, if_pos (hiff.1 hg), hlength]
      unfold lower at h ⊢
      rw [List.map_take, List.map_take, h]
    · rw [if_neg hg, if_neg fun hg' => hg (hiff.2 hg')]
      exact h

/-! ### The address of a repository -/

/-- The first segment of the path. -/
def ownerOf (value : Text) : Text := ((segments value)[0]?).getD []

/-- The second segment of the path. -/
def nameOf (value : Text) : Text := ((segments value)[1]?).getD []

/-- The columns of `Repository` hold the pair and its key. -/
def Fits (r : Text × Text) : Prop := r.1.length ≤ 100 ∧ r.2.length ≤ 100 ∧ (r.1 ++ '/' :: r.2).length ≤ 200

/-- For accepted addresses: the pair is read back as itself, letter case does not matter, and the pair fits its
row. -/
def Canonical : Prop :=
  ∀ value r, parseRepositoryUrl value = some r →
    parseRepositoryUrl (address r) = some r ∧
      (∀ value' r', parseRepositoryUrl value' = some r' → SameLetters value value' → r = r') ∧ Fits r

/-- When each of these holds, of any two accepted addresses. -/
theorem parseRepositoryUrl_iff (value value' : Text) (r r' : Text × Text) (h : parseRepositoryUrl value = some r)
    (h' : parseRepositoryUrl value' = some r') :
    (parseRepositoryUrl (address r) = some r ↔ ¬ git <:+ lower (removeGit (nameOf value))) ∧
      (SameLetters value value' → (r = r' ↔ (git <:+ nameOf value ↔ git <:+ nameOf value'))) ∧
      (Fits r ↔ (ownerOf value).length + (removeGit (nameOf value)).length < 200) := by
  obtain ⟨owner, name, ha, rfl⟩ := parse_eq_some.1 h
  obtain ⟨owner', name', ha', rfl⟩ := parse_eq_some.1 h'
  have howner : ownerOf value = owner := by
    unfold ownerOf
    rw [ha.segments]
    rfl
  have hname : nameOf value = name := by
    unfold nameOf
    rw [ha.segments]
    rfl
  have hname' : nameOf value' = name' := by
    unfold nameOf
    rw [ha'.segments]
    rfl
  have hrest : Segment (removeGit name) := segment_removeGit ha.second ha.rest
  rw [howner, hname, hname']
  refine ⟨parse_address_iff ha.first hrest, fun hsame => ?_, ?_⟩
  · have hsegments := hsame.segments
    rw [ha.segments, ha'.segments] at hsegments
    obtain ⟨hfirst, hsecond⟩ := List.cons.inj hsegments
    rw [Prod.mk.injEq, and_iff_right hfirst]
    exact lower_removeGit (List.head_eq_of_cons_eq hsecond)
  · unfold Fits
    simp only [List.length_append, List.length_cons, length_lower]
    have hmax := ha.first.2.1
    have hmax' := hrest.2.1
    omega

theorem parseRepositoryUrl_iff_repo :
    (parseRepositoryUrl (address ("owner".toList, "repo".toList)) = some ("owner".toList, "repo".toList) ↔
        ¬ git <:+ lower (removeGit (nameOf "https://github.com/Owner/Repo.git/".toList))) ∧
      (SameLetters "https://github.com/Owner/Repo.git/".toList "https://github.com/owner/repo.git/".toList →
        (("owner".toList, "repo".toList) = ("owner".toList, "repo".toList) ↔
          (git <:+ nameOf "https://github.com/Owner/Repo.git/".toList ↔
            git <:+ nameOf "https://github.com/owner/repo.git/".toList))) ∧
      (Fits ("owner".toList, "repo".toList) ↔
        (ownerOf "https://github.com/Owner/Repo.git/".toList).length +
          (removeGit (nameOf "https://github.com/Owner/Repo.git/".toList)).length < 200) :=
  parseRepositoryUrl_iff "https://github.com/Owner/Repo.git/".toList "https://github.com/owner/repo.git/".toList
    ("owner".toList, "repo".toList) ("owner".toList, "repo".toList) (by decide) (by decide)

/-- `r.git.git` is read as `r.git`, and that as `r`. -/
theorem not_canonical : ¬ Canonical := by
  intro h
  have hparse : parseRepositoryUrl "https://github.com/o/r.git.git".toList = some ("o".toList, "r.git".toList) := by decide
  have hagain : parseRepositoryUrl (address ("o".toList, "r.git".toList)) = some ("o".toList, "r".toList) := by decide
  have hsame := (h _ _ hparse).1
  rw [hagain] at hsame
  exact absurd hsame (by decide)

end Urls
end RepoPilot
