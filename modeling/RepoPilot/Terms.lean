import RepoPilot.Distinct
import RepoPilot.Urls

/-! # Search terms

`queryTerms` lists the identifiers of a query, then the words they are made of, and keeps the first twelve that
are no stop words. A name is among its own terms only if one match covers it; and the identifiers of a hint
come before the words of the question. -/

namespace RepoPilot
namespace Terms

/-- What the program takes from Unicode: `str.isalnum` of one character, and `str.lower`. White space is in no
word, and lowering does not look beyond it. -/
structure Unicode where
  isalnum : Char → Bool
  lower : Text → Text
  underscore : isalnum '_' = false
  space : ∀ c, IsSpace c → isalnum c = false
  lower_nil : lower [] = []
  lower_space : ∀ a c b, IsSpace c → lower (a ++ c :: b) = lower a ++ c :: lower b

/-! ### `retrieval.text` -/

/-- `STOP`. -/
def stop : List Text :=
  ["a", "an", "the", "is", "are", "was", "where", "how", "what", "does", "do", "in", "of", "to", "for", "and", "or",
    "with", "implemented", "implementation"].map String.toList

/-- `word not in STOP`. -/
def significant (word : Text) : Bool := !stop.contains word

/-- `[a-z0-9]` before `[A-Z]`. -/
def Camel (c d : Char) : Prop := (c.isLower = true ∨ c.isDigit = true) ∧ d.isUpper = true

instance (c d : Char) : Decidable (Camel c d) := inferInstanceAs (Decidable (_ ∧ _))

/-- `re.sub(r"([a-z0-9])([A-Z])", r"\1 \2", text)`; no match begins with the end of another. -/
def expand : Text → Text
  | c :: d :: cs => if Camel c d then c :: ' ' :: expand (d :: cs) else c :: expand (d :: cs)
  | cs => cs

variable (u : Unicode)

/-- The matches of `[^\W_]+(?:_[^\W_]+)*` in the rest of a text: of the one that goes on, what was matched, and
whether an underscore follows it. -/
def identifiersFrom : Option (Text × Bool) → Text → List Text
  | none, [] => []
  | some (found, _), [] => [found]
  | none, c :: cs => if u.isalnum c then identifiersFrom (some ([c], false)) cs else identifiersFrom none cs
  | some (found, false), c :: cs =>
    if u.isalnum c then identifiersFrom (some (found ++ [c], false)) cs
    else if c = '_' then identifiersFrom (some (found, true)) cs
    else found :: identifiersFrom none cs
  | some (found, true), c :: cs =>
    if u.isalnum c then identifiersFrom (some (found ++ ['_', c], false)) cs else found :: identifiersFrom none cs

def identifiers (text : Text) : List Text := identifiersFrom u none text

/-- The matches of `[^\W_]+` in the rest of a text, after what was matched of the first. -/
def runsFrom : Text → Text → List Text
  | [], [] => []
  | found, [] => [found]
  | [], c :: cs => if u.isalnum c then runsFrom [c] cs else runsFrom [] cs
  | found, c :: cs => if u.isalnum c then runsFrom (found ++ [c]) cs else found :: runsFrom [] cs

def runs (text : Text) : List Text := runsFrom u [] text

def words (text : Text) : List Text := (identifiers u (u.lower text) ++ runs u (u.lower (expand text))).eraseDups

def queryTerms (query : Text) : List Text := ((words u query).filter significant).take 12

theorem significant_iff {word : Text} : significant word = true ↔ word ∉ stop := by
  unfold significant
  rw [Bool.not_eq_true', ← Bool.not_eq_true, List.contains_iff_mem]

/-! ### Spelling -/

/-- Alphanumeric characters, with single underscores between them. -/
inductive Spelled : Text → Prop
  | start (c : Char) (h : u.isalnum c = true) : Spelled [c]
  | more (s : Text) (c : Char) (hs : Spelled s) (h : u.isalnum c = true) : Spelled (s ++ [c])
  | joined (s : Text) (c : Char) (hs : Spelled s) (h : u.isalnum c = true) : Spelled (s ++ ['_', c])

variable {u} {text : Text}

theorem spelled_of_identifiersFrom {state : Option (Text × Bool)}
    (hstate : ∀ found b, state = some (found, b) → Spelled u found)
    {w : Text} (hw : w ∈ identifiersFrom u state text) : Spelled u w := by
  induction text generalizing state with
  | nil =>
    match state with
    | none => cases hw
    | some (found, b) =>
      rw [List.mem_singleton.1 hw]
      exact hstate found b rfl
  | cons c cs ih =>
    match state with
    | none =>
      simp only [identifiersFrom] at hw
      split at hw
      · rename_i hc
        refine ih ?_ hw
        rintro _ _ ⟨⟩
        exact .start c hc
      · refine ih ?_ hw
        rintro _ _ ⟨⟩
    | some (found, false) =>
      have hfound := hstate found false rfl
      simp only [identifiersFrom] at hw
      split at hw
      · rename_i hc
        refine ih ?_ hw
        rintro _ _ ⟨⟩
        exact .more found c hfound hc
      · split at hw
        · refine ih ?_ hw
          rintro _ _ ⟨⟩
          exact hfound
        · rcases List.mem_cons.1 hw with rfl | hw
          · exact hfound
          · refine ih ?_ hw
            rintro _ _ ⟨⟩
    | some (found, true) =>
      have hfound := hstate found true rfl
      simp only [identifiersFrom] at hw
      split at hw
      · rename_i hc
        refine ih ?_ hw
        rintro _ _ ⟨⟩
        exact .joined found c hfound hc
      · rcases List.mem_cons.1 hw with rfl | hw
        · exact hfound
        · refine ih ?_ hw
          rintro _ _ ⟨⟩

theorem spelled_of_runsFrom {found : Text} (hfound : found = [] ∨ Spelled u found) {w : Text}
    (hw : w ∈ runsFrom u found text) : Spelled u w := by
  induction text generalizing found with
  | nil =>
    match found, hfound with
    | [], _ => cases hw
    | c :: rest, hfound =>
      rw [List.mem_singleton.1 hw]
      exact hfound.resolve_left nofun
  | cons c cs ih =>
    match found, hfound with
    | [], _ =>
      simp only [runsFrom] at hw
      split at hw
      · rename_i hc
        exact ih (.inr (.start c hc)) hw
      · exact ih (.inl rfl) hw
    | d :: rest, hfound =>
      have hspelled := hfound.resolve_left nofun
      simp only [runsFrom] at hw
      split at hw
      · rename_i hc
        exact ih (.inr (.more _ c hspelled hc)) hw
      · rcases List.mem_cons.1 hw with rfl | hw
        · exact hspelled
        · exact ih (.inl rfl) hw

/-- A spelled text is matched as a whole. -/
theorem Spelled.identifiersFrom {s : Text} (h : Spelled u s) (rest : Text) :
    identifiersFrom u none (s ++ rest) = identifiersFrom u (some (s, false)) rest := by
  induction h generalizing rest with
  | start c hc => exact if_pos hc
  | more s c _ hc ih =>
    rw [List.append_assoc, ih]
    exact if_pos hc
  | joined s c _ hc ih =>
    rw [List.append_assoc, ih]
    have hunderscore : ¬ u.isalnum '_' = true := by simp [u.underscore]
    change (if u.isalnum '_' then _ else
      if '_' = '_' then Terms.identifiersFrom u (some (s, true)) (c :: rest) else _) = _
    rw [if_neg hunderscore, if_pos rfl]
    exact if_pos hc

theorem spelled_of_words {w : Text} (hw : w ∈ words u text) : Spelled u w := by
  rcases List.mem_append.1 (List.mem_eraseDups.1 hw) with hw | hw
  · refine spelled_of_identifiersFrom ?_ hw
    rintro _ _ ⟨⟩
  · exact spelled_of_runsFrom (.inl rfl) hw

/-- A name is one of its terms exactly if one match covers it and it is no stop word. -/
theorem mem_queryTerms_self {name : Text} :
    u.lower name ∈ queryTerms u name ↔ Spelled u (u.lower name) ∧ u.lower name ∉ stop := by
  constructor
  · intro h
    obtain ⟨hw, hstop⟩ := List.mem_filter.1 (List.mem_of_mem_take h)
    exact ⟨spelled_of_words hw, significant_iff.1 hstop⟩
  · rintro ⟨hspelled, hstop⟩
    have hwhole : identifiers u (u.lower name) = [u.lower name] := by
      have hmatch := hspelled.identifiersFrom []
      rwa [List.append_nil] at hmatch
    unfold queryTerms words
    rw [hwhole, List.singleton_append, List.eraseDups_cons, List.filter_cons_of_pos (significant_iff.2 hstop),
      List.take_succ_cons]
    exact List.mem_cons_self

/-- The symbol belongs to the file of the chunk, and to the chunk or its lines. -/
def Located (c : CodeChunk) (s : CodeSymbol) : Prop :=
  s.indexId = c.indexId ∧ s.fileId = c.fileId ∧
    (some s.ordinal = c.chunk.symbolOrdinal ∨ c.chunk.startLine ≤ s.startLine ∧ s.startLine ≤ c.chunk.endLine)

/-- For every name: it is among its own search terms exactly if its lowered letters are runs of alphanumeric
characters joined by single underscores, and no stop word; and where the database lowers it to the same text, the
query that is the name selects a symbol in its place exactly then, or by the qualified name. -/
theorem queryTerms_self_iff (u : Unicode) (name : Text) :
    (u.lower name ∈ queryTerms u name ↔ Spelled u (u.lower name) ∧ u.lower name ∉ stop) ∧
      ∀ (env : Env) (c : CodeChunk) (s : CodeSymbol), s.name = name → env.lower name = u.lower name →
        (Retrieval.Named env (queryTerms u name) c s ↔ Located c s ∧
          (Spelled u (u.lower name) ∧ u.lower name ∉ stop ∨ env.lower s.qualifiedName ∈ queryTerms u name)) := by
  refine ⟨mem_queryTerms_self, ?_⟩
  rintro env c s rfl hlower
  unfold Retrieval.Named Located
  rw [hlower, mem_queryTerms_self]
  tauto

/-! ### ASCII -/

theorem isAlphanum_space {c : Char} (h : IsSpace c) : c.isAlphanum = false := by
  rw [Bool.eq_false_iff, ne_eq, Urls.isAlphanum_iff]
  unfold IsSpace at h
  simp only [List.mem_cons, List.not_mem_nil, or_false] at h
  omega

theorem toLower_space {c : Char} (h : IsSpace c) : c.toLower = c := by
  refine Char.toNat_inj.1 ?_
  rw [Urls.toNat_toLower, if_neg]
  unfold IsSpace at h
  simp only [List.mem_cons, List.not_mem_nil, or_false] at h
  omega

/-- Letters and digits of ASCII only. -/
def ascii : Unicode where
  isalnum := Char.isAlphanum
  lower := Urls.lower
  underscore := rfl
  space := fun _ => isAlphanum_space
  lower_nil := rfl
  lower_space := fun a c b h => by
    unfold Urls.lower
    rw [List.map_append, List.map_cons, toLower_space h]

/-- Letters, digits and underscores, with no digit first. -/
def Identifier (name : Text) : Prop :=
  (∃ c, name.head? = some c ∧ (c.isAlpha = true ∨ c = '_')) ∧ name.all (fun c => c.isAlphanum || c = '_') = true

/-- `__init__` is an identifier and no stop word, and the only term it has is `init`. -/
theorem not_queryTerms_init :
    ¬ ∀ (u : Unicode) (name : Text), Identifier name → name.length ≤ 512 → name ∉ stop → u.lower name ∉ stop →
      u.lower name ∈ queryTerms u name := by
  intro h
  have hmem := h ascii "__init__".toList ⟨⟨'_', rfl, .inr rfl⟩, by decide⟩ (by decide) (by decide) (by decide)
  exact absurd hmem (by decide)

/-! ### White space -/

section Space
variable {c : Char} {a b : Text}

theorem isalnum_space (h : IsSpace c) : ¬ u.isalnum c = true := by simp [u.space c h]

theorem ne_underscore (h : IsSpace c) : c ≠ '_' := by
  rintro rfl
  exact absurd h (by decide)

/-- No match goes across white space. -/
theorem identifiersFrom_space (h : IsSpace c) (state : Option (Text × Bool)) :
    identifiersFrom u state (a ++ c :: b) = identifiersFrom u state a ++ identifiers u b := by
  have hc := isalnum_space (u := u) h
  induction a generalizing state with
  | nil =>
    match state with
    | none => exact if_neg hc
    | some (found, false) => exact (if_neg hc).trans (if_neg (ne_underscore h))
    | some (found, true) => exact if_neg hc
  | cons d a ih =>
    match state with
    | none =>
      simp only [List.cons_append, identifiersFrom]
      split <;> exact ih _
    | some (found, false) =>
      simp only [List.cons_append, identifiersFrom]
      split
      · exact ih _
      · split
        · exact ih _
        · rw [ih]
          rfl
    | some (found, true) =>
      simp only [List.cons_append, identifiersFrom]
      split
      · exact ih _
      · rw [ih]
        rfl

theorem runsFrom_space (h : IsSpace c) (found : Text) :
    runsFrom u found (a ++ c :: b) = runsFrom u found a ++ runs u b := by
  have hc := isalnum_space (u := u) h
  induction a generalizing found with
  | nil =>
    match found with
    | [] => exact if_neg hc
    | d :: rest => exact if_neg hc
  | cons d a ih =>
    match found with
    | [] =>
      simp only [List.cons_append, runsFrom]
      split <;> exact ih _
    | e :: rest =>
      simp only [List.cons_append, runsFrom]
      split
      · exact ih _
      · rw [ih]
        rfl

theorem not_camel_space (h : IsSpace c) (d : Char) : ¬ Camel d c ∧ ¬ Camel c d := by
  have halnum := isAlphanum_space h
  unfold Camel
  constructor
  · rintro ⟨-, hupper⟩
    simp [Char.isAlphanum, Char.isAlpha, hupper] at halnum
  · rintro ⟨hlower | hdigit, -⟩
    · simp [Char.isAlphanum, Char.isAlpha, hlower] at halnum
    · simp [Char.isAlphanum, hdigit] at halnum

theorem expand_space (h : IsSpace c) : expand (a ++ c :: b) = expand a ++ c :: expand b := by
  have hright : ∀ b, expand (c :: b) = c :: expand b := by
    intro b
    cases b with
    | nil => rfl
    | cons d b => exact if_neg (not_camel_space h d).2
  induction a with
  | nil => exact hright b
  | cons d a ih =>
    cases a with
    | nil => exact (if_neg (not_camel_space h d).1).trans (congrArg _ (hright b))
    | cons e a =>
      simp only [List.cons_append, expand] at ih ⊢
      split <;> simp [ih]

variable (u) in
/-- The identifiers of a text that are no stop words. -/
def whole (text : Text) : List Text := (identifiers u (u.lower text)).filter significant

variable (u) in
/-- The words that the identifiers of a text are made of, without stop words. -/
def pieces (text : Text) : List Text := (runs u (u.lower (expand text))).filter significant

theorem queryTerms_eq (text : Text) : queryTerms u text = (whole u text ++ pieces u text).eraseDups.take 12 := by
  unfold queryTerms words whole pieces
  rw [Distinct.filter_eraseDups, List.filter_append]

theorem whole_space (h : IsSpace c) : whole u (a ++ c :: b) = whole u a ++ whole u b := by
  unfold whole identifiers
  rw [u.lower_space a c b h, identifiersFrom_space h, List.filter_append]
  rfl

theorem pieces_space (h : IsSpace c) : pieces u (a ++ c :: b) = pieces u a ++ pieces u b := by
  unfold pieces runs
  rw [expand_space h, u.lower_space _ c _ h, runsFrom_space h, List.filter_append]
  rfl

theorem whole_nil : whole u [] = [] := by
  unfold whole
  rw [u.lower_nil]
  rfl

theorem pieces_nil : pieces u [] = [] := by
  unfold pieces
  change (runs u (u.lower [])).filter _ = []
  rw [u.lower_nil]
  rfl

/-- White space at the ends of a text does not show in its terms. -/
theorem trim {s : Text} (ha : ∀ d ∈ a, IsSpace d) (hb : ∀ d ∈ b, IsSpace d) :
    whole u (a ++ s ++ b) = whole u s ∧ pieces u (a ++ s ++ b) = pieces u s := by
  have hend : whole u (s ++ b) = whole u s ∧ pieces u (s ++ b) = pieces u s := by
    clear ha
    induction b using List.reverseRecOn with
    | nil =>
      rw [List.append_nil]
      exact ⟨rfl, rfl⟩
    | append_singleton b d ih =>
      have hd : IsSpace d := hb d (by simp)
      rw [← List.append_assoc, whole_space hd, pieces_space hd, whole_nil, pieces_nil, List.append_nil, List.append_nil]
      exact ih fun e he => hb e (List.mem_append_left _ he)
  induction a with
  | nil => exact hend
  | cons d a ih =>
    have hd : IsSpace d := ha d List.mem_cons_self
    have hfirst := whole_space (u := u) (a := []) (b := a ++ s ++ b) hd
    have hsecond := pieces_space (u := u) (a := []) (b := a ++ s ++ b) hd
    rw [whole_nil, List.nil_append, List.nil_append] at hfirst
    rw [pieces_nil, List.nil_append, List.nil_append] at hsecond
    rw [List.cons_append, List.cons_append, hfirst, hsecond]
    exact ih fun e he => ha e (List.mem_cons_of_mem _ he)

/-- A text is its strip between white space. -/
theorem strip_between (s : Text) : ∃ a b, s = a ++ strip s ++ b ∧ (∀ d ∈ a, IsSpace d) ∧ ∀ d ∈ b, IsSpace d := by
  have htake : ∀ (t : Text), ∀ d ∈ t.takeWhile (IsSpace ·), IsSpace d := by
    intro t d hd
    have hspace := List.mem_takeWhile_imp hd
    exact of_decide_eq_true hspace
  refine ⟨s.takeWhile (IsSpace ·), ((s.dropWhile (IsSpace ·)).reverse.takeWhile (IsSpace ·)).reverse, ?_, htake s, ?_⟩
  · unfold strip
    rw [List.append_assoc, ← List.reverse_append, List.takeWhile_append_dropWhile, List.reverse_reverse,
      List.takeWhile_append_dropWhile]
  · intro d hd
    exact htake _ d (List.mem_reverse.1 hd)

theorem queryTerms_strip (text : Text) : queryTerms u (strip text) = queryTerms u text := by
  obtain ⟨a, b, htext, ha, hb⟩ := strip_between text
  obtain ⟨hwhole, hpieces⟩ := trim (u := u) (s := strip text) ha hb
  rw [queryTerms_eq, queryTerms_eq, ← hwhole, ← hpieces, ← htext]

end Space

/-! ### The retrieval question -/

variable (u) in
/-- The checks of a request, with these search terms. -/
def withTerms (env : Env) : Env := { env with queryTerms := queryTerms u }

/-- What `retrieval_question` adds of the last question. -/
def hint (question : Text) (turns : List HistoryTurn) : Text :=
  match turns.getLast? with
  | none => []
  | some last => if 510 ≤ question.length then [] else last.question.take (511 - question.length)

theorem retrievalQuestion_eq (question : Text) (turns : List HistoryTurn) :
    hint question turns = [] ∧ Generation.retrievalQuestion question turns = question ∨
      question.length < 510 ∧ (hint question turns).length ≤ 511 - question.length ∧
        Generation.retrievalQuestion question turns = question ++ '\n' :: hint question turns := by
  unfold Generation.retrievalQuestion hint
  cases turns.getLast? with
  | none => exact .inl ⟨rfl, rfl⟩
  | some last =>
    dsimp only
    split
    · exact .inl ⟨rfl, rfl⟩
    · exact .inr ⟨Nat.not_le.1 ‹_›, List.length_take_le _ _, rfl⟩

variable (u) in
/-- The terms of the question are among the first distinct identifiers of question and hint, or they are at most
twelve with these. -/
def Unhindered (question hint : Text) : Prop :=
  (∀ t ∈ queryTerms u question, t ∈ (whole u question ++ whole u hint).eraseDups.take 12) ∨
    (whole u question ++ whole u hint ++ queryTerms u question).eraseDups.length ≤ 12

/-- A hint keeps the terms of the question exactly if it does not crowd them out. -/
theorem terms_kept_iff (question : Text) (turns : List HistoryTurn) :
    (∀ t ∈ queryTerms u question, t ∈ queryTerms u (Generation.retrievalQuestion question turns)) ↔
      Unhindered u question (hint question turns) := by
  unfold Unhindered
  rw [queryTerms_eq, queryTerms_eq]
  rcases retrievalQuestion_eq question turns with ⟨hhint, hrq⟩ | ⟨-, -, hrq⟩
  · have hsame := Distinct.take_subset_iff 12 (whole u question) [] (pieces u question) []
    rw [hrq, hhint, whole_nil]
    rw [List.append_nil, List.append_nil] at hsame
    rwa [List.append_nil]
  · have hspace : IsSpace '\n' := by decide
    rw [hrq, whole_space hspace, pieces_space hspace, ← List.append_assoc]
    exact Distinct.take_subset_iff 12 _ _ _ _

theorem queryTerms_nil : queryTerms u [] = [] := by
  rw [queryTerms_eq, whole_nil, pieces_nil]
  rfl

theorem queryTerms_ne_nil {text : Text} : queryTerms u text ≠ [] ↔ whole u text ++ pieces u text ≠ [] := by
  rw [queryTerms_eq, not_iff_not]
  constructor
  · intro h
    rcases List.take_eq_nil_iff.1 h with h | h
    · cases h
    · refine List.eq_nil_iff_forall_not_mem.2 fun a ha => ?_
      have hmem := List.mem_eraseDups.2 ha
      rw [h] at hmem
      cases hmem
  · intro h
    rw [h]
    rfl

/-- An accepted question is stripped and still a question. -/
theorem usable_sized {env : Env} {text question : Text} (h : usable (withTerms u env) text = some question) :
    1 ≤ question.length ∧ question.length ≤ 512 ∧ queryTerms u question ≠ [] := by
  unfold usable at h
  split at h
  · rename_i hchecks
    obtain ⟨-, hlength, hterms⟩ := hchecks
    obtain rfl := Option.some.inj h
    have hquestion : queryTerms u (strip text) ≠ [] := by
      rw [queryTerms_strip]
      exact hterms
    refine ⟨?_, ?_, hquestion⟩
    · refine List.length_pos_iff.2 fun hnil => hquestion ?_
      rw [hnil, queryTerms_nil]
    · obtain ⟨a, b, htext, -⟩ := strip_between text
      have hlengths := congrArg List.length htext
      rw [List.length_append, List.length_append] at hlengths
      omega
  · cases h

/-- For every accepted question and every history: the retrieval question is a usable query that starts with the
question, and the terms of the question stay exactly if the hint does not crowd them out. -/
theorem retrievalQuestion_iff (u : Unicode) (env : Env) (text question : Text) (turns : List HistoryTurn)
    (h : usable (withTerms u env) text = some question) :
    (usable (withTerms u env) (Generation.retrievalQuestion question turns)).isSome ∧
      question <+: Generation.retrievalQuestion question turns ∧
      ((∀ t ∈ queryTerms u question, t ∈ queryTerms u (Generation.retrievalQuestion question turns)) ↔
        Unhindered u question (hint question turns)) := by
  obtain ⟨hsome, hshort, hquestion⟩ := usable_sized h
  refine ⟨?_, ?_, terms_kept_iff _ _⟩
  · unfold usable
    refine Option.isSome_iff_exists.2 ⟨_, if_pos ?_⟩
    rcases retrievalQuestion_eq question turns with ⟨-, hrq⟩ | ⟨hroom, hhint, hrq⟩
    · rw [hrq]
      exact ⟨hsome, hshort, hquestion⟩
    · have hspace : IsSpace '\n' := by decide
      rw [hrq, List.length_append, List.length_cons]
      refine ⟨by omega, by omega, ?_⟩
      change queryTerms u _ ≠ []
      rw [queryTerms_ne_nil] at hquestion ⊢
      rw [whole_space hspace, pieces_space hspace]
      rintro hnil
      simp only [List.append_eq_nil_iff] at hnil
      exact hquestion (List.append_eq_nil_iff.2 ⟨hnil.1.1, hnil.2.1⟩)
  · rcases retrievalQuestion_eq question turns with ⟨-, hrq⟩ | ⟨-, -, hrq⟩
    · rw [hrq]
    · rw [hrq]
      exact List.prefix_append _ _

/-- One turn with a question. -/
def turn (question : Text) (h : 1 ≤ question.length ∧ question.length ≤ 512) : HistoryTurn where
  turnId := 0
  question := question
  answer := ['.']
  questionLength := h
  answerLength := by decide

theorem retrievalQuestion_iff_short :
    (usable (withTerms ascii .plain) (Generation.retrievalQuestion "loadUser".toList
        [turn "alpha beta".toList (by decide)])).isSome ∧
      "loadUser".toList <+: Generation.retrievalQuestion "loadUser".toList [turn "alpha beta".toList (by decide)] ∧
      ((∀ t ∈ queryTerms ascii "loadUser".toList,
          t ∈ queryTerms ascii (Generation.retrievalQuestion "loadUser".toList [turn "alpha beta".toList (by decide)])) ↔
        Unhindered ascii "loadUser".toList (hint "loadUser".toList [turn "alpha beta".toList (by decide)])) :=
  retrievalQuestion_iff ascii .plain "loadUser".toList "loadUser".toList [turn "alpha beta".toList (by decide)] (by decide)

/-- Eleven terms, and two more from the hint: `file` is the thirteenth. -/
theorem not_terms_kept :
    ¬ ∀ (u : Unicode) (env : Env) (text question : Text) (turns : List HistoryTurn),
      usable (withTerms u env) text = some question →
      ∀ t ∈ queryTerms u question, t ∈ queryTerms u (Generation.retrievalQuestion question turns) := by
  intro h
  have hkept := h ascii .plain "loadUser saveUser parseJson readFile".toList "loadUser saveUser parseJson readFile".toList
    [turn "alpha beta".toList (by decide)] (by decide) "file".toList (by decide)
  exact absurd hkept (by decide)

end Terms
end RepoPilot
