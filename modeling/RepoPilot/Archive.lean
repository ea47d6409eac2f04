import RepoPilot.Framing
import RepoPilot.Imports

/-! # Reading a repository archive

`readArchive` walks the members of a tar archive once and keeps the text files among them. Every member is
rejected with the whole archive, skipped, or kept; what is kept is safe to store, except that a name may hold
surrogates, which no column takes. -/

namespace RepoPilot
namespace Archive

/-! ### Names -/

/-- A code point of a name; names are decoded with `surrogateescape`. -/
inductive Point
  | char (c : Char)
  | surrogate (n : Fin 2048)
  deriving DecidableEq

abbrev Name := List Point

/-- `ord`. -/
def Point.ord : Point → Nat
  | .char c => c.toNat
  | .surrogate n => 0xD800 + n

def points (s : String) : Name := s.toList.map .char

/-- `str.lower` on ASCII. -/
def Point.asciiLower : Point → Point
  | .char c => .char c.toLower
  | .surrogate n => .surrogate n

/-- `str.lower`: characters of ASCII are lowered one by one, also before others. -/
structure LowerCase where
  lower : Name → Name
  ascii : ∀ a, (∀ c ∈ a, c.ord < 128) → lower a = a.map Point.asciiLower
  ascii_append : ∀ a s, (∀ c ∈ a, c.ord < 128) → a.map Point.asciiLower <+: lower (a ++ s)

def slash : Point := .char '/'

def dot : Point := .char '.'

/-- `name.rstrip("/")`. -/
def stripped (name : Name) : Name := name.rdropWhile (· = slash)

/-- `name.split("/")`. -/
def parts (name : Name) : List Name := name.splitOn slash

/-- A component that does not name a file. -/
def Hollow (part : Name) : Prop := part = [] ∨ part = points "." ∨ part = points ".."

instance : DecidablePred Hollow := fun part => inferInstanceAs (Decidable (part = [] ∨ _))

def Control (c : Point) : Prop := c.ord < 32 ∨ c.ord = 127

instance : DecidablePred Control := fun c => inferInstanceAs (Decidable (c.ord < 32 ∨ _))

def Unsafe (name : Name) : Prop :=
  name = [] ∨ 600 < name.length ∨ name.head? = some slash ∨ .char '\\' ∈ name ∨ (∃ part ∈ parts name, Hollow part) ∨
    (∃ c ∈ name, Control c) ∨ .char ':' ∈ name

instance : DecidablePred Unsafe := fun name => inferInstanceAs (Decidable (name = [] ∨ _))

/-- `PurePosixPath(path).suffix`, of a path whose last component is `base`. -/
def suffix (base : Name) : Name :=
  match base.reverse.span (· ≠ dot) with
  | (extension, _ :: stem) => if extension = [] ∨ stem = [] then [] else dot :: extension.reverse
  | (_, []) => []

/-! ### Tables -/

def ignored : List String :=
  [".git", "node_modules", "venv", ".venv", "dist", "build", "coverage", ".next", "__pycache__", "vendor", ".ssh", ".aws"]

def secretNames : List String := [".npmrc", ".pypirc", ".netrc", "id_rsa", "id_ed25519", "credentials"]

def languages : List (String × String) :=
  [(".py", "python"), (".js", "javascript"), (".jsx", "javascript"), (".ts", "typescript"), (".tsx", "typescript"),
    (".md", "markdown"), (".sql", "sql"), (".json", "json"), (".toml", "toml"), (".yaml", "yaml"), (".yml", "yaml"),
    (".html", "html"), (".css", "css"), (".txt", "text"), (".ini", "text"), (".cfg", "text")]

/-- `LANGUAGES.get(suffix)`. -/
def languageOf (suffix : Name) : Option String := (languages.find? fun l => points l.1 = suffix).map (·.2)

def plainNames : List String := ["readme", "license", "dockerfile", "makefile"]

/-! ### Members -/

structure ArchiveLimits where
  storedBytes : Int
  fileBytes : Int
  members : Int

/-- The limits `run_import` reads with. -/
def ArchiveLimits.default : ArchiveLimits := ⟨10 * 1024 * 1024, 256 * 1024, 5000⟩

/-- What reading the archive may raise: an error that `read_archive` catches, a limit of `BoundedReader`, or
any other. -/
inductive Fault
  | invalid
  | timeout
  | tooLarge
  | other

def failure (code message : String) : Raised := .importFailure code message false

def Fault.raised : Fault → Raised
  | .invalid => failure "invalid_archive" "GitHub archive is invalid or truncated."
  | .timeout => failure "archive_timeout" "Archive processing exceeded its time limit."
  | .tooLarge => failure "archive_too_large" "Expanded archive exceeds the configured size limit."
  | .other => .other

/-- `isdir`, `isfile`, or neither. -/
inductive Kind
  | directory
  | regular
  | other
  deriving DecidableEq

/-- A member, with what `extractfile` gives, or what reading it raises. -/
structure Member where
  name : Name
  kind : Kind
  sparse : Bool
  size : Int
  data : Except Fault (Option (List UInt8))

namespace Member
variable (m : Member)

/-- The components of the member's name. -/
def components : List Name := parts (stripped m.name)

/-- The components below the root. -/
def inner : List Name := m.components.drop 1

def path : Name := [slash].intercalate m.inner

def last : Name := m.components.getLast?.getD []

end Member

/-- The members in the order of the archive, and what ends it: a fault, there or in what follows the members. -/
structure Tar where
  members : List Member
  ending : Option Fault

structure File where
  path : Name
  language : String
  content : Text
  size : Nat
  contentHash : Text

structure Result where
  files : List File
  scanned : Nat
  skipped : Nat

/-! ### `read_archive` -/

/-- `content.decode("utf-8")`. -/
def decodeUtf8 (content : List UInt8) : Option Text :=
  match Framing.decode [] content with
  | (text, some []) => some text
  | _ => none

variable (u : LowerCase) (sha256 : List UInt8 → Text) (limits : ArchiveLimits)

/-- A component below the root is ignored. -/
def Excluded (m : Member) : Prop :=
  ∃ part ∈ m.inner, part ∈ ignored.map points ∨ points ".env" <+: u.lower part

instance : DecidablePred (Excluded u) := fun m => inferInstanceAs (Decidable (∃ part ∈ m.inner, _ ∨ _))

def Allowed (m : Member) : Prop :=
  (languageOf (u.lower (suffix m.last))).isSome ∨ u.lower m.last ∈ plainNames.map points

instance : DecidablePred (Allowed u) := fun m =>
  inferInstanceAs (Decidable ((languageOf (u.lower (suffix m.last))).isSome ∨ _))

/-- The member is skipped without being read. -/
def Skipped (m : Member) : Prop :=
  m.kind ≠ .regular ∨ m.sparse = true ∨ Excluded u m ∨ u.lower m.last ∈ secretNames.map points ∨ ¬ Allowed u m ∨
    limits.fileBytes < m.size ∨ m.size < 0

instance : DecidablePred (Skipped u limits) := fun m => inferInstanceAs (Decidable (m.kind ≠ .regular ∨ _))

/-- What `stream.read` returns. -/
def readable (data : List UInt8) : List UInt8 := data.take (limits.fileBytes + 1).toNat

def lfsHeader : Text := "version https://git-lfs.github.com/spec/v1".toList

/-- The text of the content, unless it is skipped. -/
def textOf (content : List UInt8) : Option Text :=
  if limits.fileBytes < content.length ∨ 0 ∈ content then none
  else (decodeUtf8 content).filter fun text => ¬ lfsHeader <+: text

def fileOf (m : Member) (content : List UInt8) (text : Text) : File where
  path := m.path
  language := (languageOf (u.lower (suffix m.last))).getD "text"
  content := text
  size := content.length
  contentHash := sha256 content

structure Scan where
  files : List File
  scanned : Nat
  skipped : Nat
  stored : Nat
  members : Nat
  root : Option Name
  seen : List Name

def Scan.start : Scan := ⟨[], 0, 0, 0, 0, none, []⟩

/-- A member that was not skipped for what it is. -/
def Scan.read (s : Scan) (m : Member) : Except Raised Scan :=
  match m.data with
  | .error fault => .error fault.raised
  | .ok none => .error (failure "invalid_archive" "Archive file could not be read.")
  | .ok (some data) =>
    match textOf limits (readable limits data) with
    | none => .ok { s with skipped := s.skipped + 1 }
    | some text =>
      let stored := s.stored + (readable limits data).length
      if limits.storedBytes < stored then
        .error (failure "content_too_large" "Accepted source files exceed the storage limit.")
      else .ok { s with stored := stored, files := s.files ++ [fileOf u sha256 m (readable limits data) text] }

/-- A member below the root. -/
def Scan.file (s : Scan) (m : Member) : Except Raised Scan :=
  if m.components.length < 2 then
    .error (failure "unsafe_path" "Archive file has no repository-relative path.")
  else if 512 < m.path.length ∨ m.path ∈ s.seen then
    .error (failure "unsafe_path" "Archive contains a duplicate or overlong path.")
  else
    let s := { s with seen := m.path :: s.seen, scanned := s.scanned + 1 }
    if Skipped u limits m then .ok { s with skipped := s.skipped + 1 } else s.read u sha256 limits m

/-- One member. -/
def Scan.step (s : Scan) (m : Member) : Except Raised Scan :=
  if limits.members < (s.members + 1 : Nat) then
    .error (failure "too_many_files" "Archive exceeds the configured entry count limit.")
  else if Unsafe (stripped m.name) then .error (failure "unsafe_path" "Archive contains an unsafe path.")
  else
    let first := m.components.head?
    let root := s.root.or first
    if first ≠ root then .error (failure "unsafe_archive" "Archive has inconsistent root directories.")
    else
      let s := { s with members := s.members + 1, root := root }
      if m.kind = .directory then .ok s else s.file u sha256 limits m

/-- `read_archive`. -/
def readArchive (tar : Tar) : Except Raised Result :=
  match tar.members.foldlM (Scan.step u sha256 limits) Scan.start with
  | .error e => .error e
  | .ok s =>
    match tar.ending with
    | some fault => .error fault.raised
    | none =>
      if s.files = [] then .error (failure "no_supported_files" "No supported UTF-8 text files were found.")
      else .ok ⟨s.files, s.scanned, s.skipped⟩

/-! ### Paths -/

theorem not_mem_of_mem_splitOn {α : Type} [DecidableEq α] {x : α} {xs l : List α} (h : l ∈ xs.splitOn x) : x ∉ l := by
  induction xs generalizing l with
  | nil =>
    rw [List.splitOn_nil, List.mem_singleton] at h
    simp [h]
  | cons y xs ih =>
    rw [List.splitOn_cons_eq_if_modifyHead] at h
    split at h
    · rcases List.mem_cons.1 h with rfl | h
      · exact List.not_mem_nil
      · exact ih h
    · rename_i hy
      cases hs : xs.splitOn x with
      | nil => exact absurd hs (List.splitOn_ne_nil x xs)
      | cons first rest =>
        simp only [hs, List.modifyHead_cons] at h
        rcases List.mem_cons.1 h with rfl | h
        · have hfirst : x ∉ first := ih (hs ▸ List.mem_cons_self)
          have hne : x ≠ y := by
            rintro rfl
            simp at hy
          simp [hne, hfirst]
        · exact ih (hs ▸ List.mem_cons_of_mem _ h)

section Path
variable {m : Member}

theorem components_ne_nil : m.components ≠ [] := List.splitOn_ne_nil _ _

/-- The path follows the root and a slash. -/
theorem path_suffix (h : 2 ≤ m.components.length) : m.path <:+ stripped m.name := by
  have hname : [slash].intercalate m.components = stripped m.name := List.intercalate_splitOn slash
  unfold Member.path Member.inner
  match hc : m.components, h with
  | first :: second :: rest, _ =>
    rw [hc, List.intercalate_cons_cons] at hname
    rw [List.drop_succ_cons, List.drop_zero, ← hname]
    exact List.suffix_append _ _

/-- The components of the path are those below the root. -/
theorem parts_path (h : 2 ≤ m.components.length) : parts m.path = m.inner := by
  unfold parts Member.path
  refine List.splitOn_intercalate slash (fun part hp => ?_) (fun hnil => ?_)
  · exact not_mem_of_mem_splitOn (List.mem_of_mem_drop hp)
  · have hlength := congrArg List.length hnil
    unfold Member.inner at hlength
    rw [List.length_drop, List.length_nil] at hlength
    omega

theorem last_path (h : 2 ≤ m.components.length) : (parts m.path).getLast? = some m.last := by
  rw [parts_path h]
  unfold Member.inner Member.last
  have hdrop : (m.components.drop 1).getLast? = m.components.getLast? := by
    rw [List.getLast?_drop, if_neg (by omega)]
  rw [hdrop]
  cases hl : m.components.getLast? with
  | none => exact absurd (List.getLast?_eq_none_iff.1 hl) components_ne_nil
  | some part => rfl

end Path

/-- The component starts with `.env`, in any letter case. -/
def EnvLike (part : Name) : Prop := ∃ start rest, part = start ++ rest ∧ start.map Point.asciiLower = points ".env"

/-- Lowering does not leave ASCII, nor enter it. -/
theorem ord_of_asciiLower {c : Point} (h : c.asciiLower.ord < 128) : c.ord < 128 := by
  cases c with
  | surrogate n => exact h
  | char c =>
    change c.toLower.toNat < 128 at h
    change c.toNat < 128
    unfold Char.toLower at h
    split at h
    · rename_i hc
      have hupper : c.toNat ≤ 90 := hc.2
      omega
    · exact h

variable {u sha256 limits}

theorem points_ascii {part : Name} {s : String} (hs : ∀ c ∈ points s, c.ord < 128)
    (h : part.map Point.asciiLower = points s) : ∀ c ∈ part, c.ord < 128 := by
  intro c hc
  have hmem : c.asciiLower ∈ points s := by
    rw [← h]
    exact List.mem_map_of_mem hc
  exact ord_of_asciiLower (hs _ hmem)

/-- Lowering finds `.env` in any letter case. -/
theorem env_of_envLike {part : Name} (h : EnvLike part) : points ".env" <+: u.lower part := by
  obtain ⟨start, rest, rfl, hstart⟩ := h
  rw [← hstart]
  exact u.ascii_append start rest (points_ascii (by decide) hstart)

theorem secret_lower {base : Name} (h : base ∈ secretNames.map points) : u.lower base ∈ secretNames.map points := by
  have hlow : ∀ part ∈ secretNames.map points, (∀ c ∈ part, c.ord < 128) ∧ part.map Point.asciiLower = part := by decide
  obtain ⟨hascii, hsame⟩ := hlow base h
  rw [u.ascii base hascii, hsame]
  exact h

/-! ### What one member does -/

variable (u sha256 limits) in
/-- What is kept of a member. -/
def kept (m : Member) : Option File :=
  if m.kind = .directory ∨ Skipped u limits m then none
  else
    match m.data with
    | .ok (some data) => (textOf limits (readable limits data)).map (fileOf u sha256 m (readable limits data))
    | _ => none

namespace Scan

/-- The member is seen. -/
def enter (s : Scan) (m : Member) : Scan := { s with members := s.members + 1, root := m.components.head? }

/-- A member below the root is kept or skipped. -/
def count (s : Scan) (m : Member) : Option File → Scan
  | none => { s with seen := m.path :: s.seen, scanned := s.scanned + 1, skipped := s.skipped + 1 }
  | some f =>
    { s with
      seen := m.path :: s.seen
      scanned := s.scanned + 1
      stored := s.stored + f.size
      files := s.files ++ [f] }

/-- The member does not end the scan for its name. -/
structure Entered (limits : ArchiveLimits) (s : Scan) (m : Member) : Prop where
  within : ((s.members + 1 : Nat) : Int) ≤ limits.members
  safe : ¬ Unsafe (stripped m.name)
  rooted : s.root = none ∨ s.root = m.components.head?

/-- The member has a new path of its own below the root. -/
structure Placed (s : Scan) (m : Member) : Prop where
  below : 2 ≤ m.components.length
  short : m.path.length ≤ 512
  fresh : m.path ∉ s.seen

theorem read_ok {s s' : Scan} {m : Member} (hk : ¬ (m.kind = .directory ∨ Skipped u limits m))
    (h : ({ s with seen := m.path :: s.seen, scanned := s.scanned + 1 } : Scan).read u sha256 limits m = .ok s') :
    s' = s.count m (kept u sha256 limits m) ∧ (kept u sha256 limits m = none ∨
      (s'.stored : Int) ≤ limits.storedBytes) := by
  unfold read at h
  unfold kept
  rw [if_neg hk]
  cases hd : m.data with
  | error fault =>
    rw [hd] at h
    cases h
  | ok o =>
    cases o with
    | none =>
      rw [hd] at h
      cases h
    | some data =>
      rw [hd] at h
      dsimp only at h ⊢
      cases ht : textOf limits (readable limits data) with
      | none =>
        rw [ht] at h
        cases h
        exact ⟨rfl, .inl rfl⟩
      | some text =>
        rw [ht] at h
        dsimp only at h
        split at h
        · cases h
        · rename_i hlimit
          cases h
          exact ⟨rfl, .inr (Int.not_lt.1 hlimit)⟩

theorem step_ok {s s' : Scan} {m : Member} (h : s.step u sha256 limits m = .ok s') :
    Entered limits s m ∧
      (m.kind = .directory ∧ s' = s.enter m ∨
        m.kind ≠ .directory ∧ Placed s m ∧ s' = (s.enter m).count m (kept u sha256 limits m) ∧
          (kept u sha256 limits m = none ∨ (s'.stored : Int) ≤ limits.storedBytes)) := by
  unfold step at h
  split at h
  · cases h
  rename_i hwithin
  split at h
  · cases h
  rename_i hsafe
  dsimp only at h
  split at h
  · cases h
  rename_i hroot
  have hfirst : m.components.head? = s.root.or m.components.head? := not_not.1 hroot
  have hrooted : s.root = none ∨ s.root = m.components.head? := by
    cases hs : s.root with
    | none => exact .inl rfl
    | some root =>
      rw [hs] at hfirst
      exact .inr hfirst.symm
  refine ⟨⟨Int.not_lt.1 hwithin, hsafe, hrooted⟩, ?_⟩
  rw [← hfirst] at h
  split at h
  · rename_i hdir
    cases h
    exact .inl ⟨hdir, rfl⟩
  · rename_i hdir
    unfold file at h
    split at h
    · cases h
    rename_i hbelow
    split at h
    · cases h
    rename_i hpath
    obtain ⟨hshort, hfresh⟩ := not_or.1 hpath
    refine .inr ⟨hdir, ⟨Nat.not_lt.1 hbelow, Nat.not_lt.1 hshort, hfresh⟩, ?_⟩
    dsimp only at h
    split at h
    · rename_i hskip
      have hnone : kept u sha256 limits m = none := if_pos (.inr hskip)
      cases h
      rw [hnone]
      exact ⟨rfl, .inl rfl⟩
    · rename_i hskip
      exact read_ok (s := s.enter m) (not_or.2 ⟨hdir, hskip⟩) h

end Scan

/-! ### The whole archive -/

/-- The members that are not directories. -/
def below (ms : List Member) : List Member := ms.filter (·.kind ≠ .directory)

/-- What the scan has counted of the members so far. -/
structure Scan.Inv (u : LowerCase) (sha256 : List UInt8 → Text) (limits : ArchiveLimits) (ms : List Member) (s : Scan) :
    Prop where
  members : s.members = ms.length
  within : ms = [] ∨ (ms.length : Int) ≤ limits.members
  safe : ∀ m ∈ ms, ¬ Unsafe (stripped m.name)
  rooted : ∀ m ∈ ms, m.components.head? = s.root
  files : s.files = (below ms).filterMap (kept u sha256 limits)
  seen : s.seen = ((below ms).map Member.path).reverse
  distinct : s.seen.Nodup
  placed : ∀ m ∈ below ms, 2 ≤ m.components.length ∧ m.path.length ≤ 512
  scanned : s.scanned = (below ms).length
  counted : s.scanned = s.files.length + s.skipped
  stored : s.stored = (s.files.map (·.size)).sum
  limit : s.files = [] ∨ (s.stored : Int) ≤ limits.storedBytes

theorem below_concat {ms : List Member} {m : Member} :
    below (ms ++ [m]) = if m.kind = .directory then below ms else below ms ++ [m] := by
  unfold below
  rw [List.filter_append]
  split <;> simp_all

theorem Scan.Inv.start : Scan.Inv u sha256 limits [] .start where
  members := rfl
  within := .inl rfl
  safe := nofun
  rooted := nofun
  files := rfl
  seen := rfl
  distinct := List.nodup_nil
  placed := nofun
  scanned := rfl
  counted := rfl
  stored := rfl
  limit := .inl rfl

/-- A member that is seen. -/
theorem Scan.Inv.enter {ms : List Member} {s : Scan} {m : Member} (hi : Scan.Inv u sha256 limits ms s)
    (he : s.Entered limits m) :
    ((ms ++ [m]).length : Int) ≤ limits.members ∧ (∀ x ∈ ms ++ [m], ¬ Unsafe (stripped x.name)) ∧
      ∀ x ∈ ms ++ [m], x.components.head? = m.components.head? := by
  refine ⟨?_, ?_, ?_⟩
  · have hwithin := he.within
    rw [hi.members] at hwithin
    rw [List.length_append]
    exact hwithin
  · intro x hx
    rcases List.mem_append.1 hx with hx | hx
    · exact hi.safe x hx
    · rw [List.mem_singleton.1 hx]
      exact he.safe
  · intro x hx
    rcases List.mem_append.1 hx with hx | hx
    · have hroot := hi.rooted x hx
      rcases he.rooted with hnone | hsome
      · rw [hnone] at hroot
        exact absurd (List.head?_eq_none_iff.1 hroot) components_ne_nil
      · rw [hroot, hsome]
    · rw [List.mem_singleton.1 hx]

theorem Scan.Inv.step {ms : List Member} {s s' : Scan} {m : Member} (hi : Scan.Inv u sha256 limits ms s)
    (h : s.step u sha256 limits m = .ok s') : Scan.Inv u sha256 limits (ms ++ [m]) s' := by
  obtain ⟨he, hcase⟩ := Scan.step_ok h
  obtain ⟨hwithin, hsafe, hrooted⟩ := hi.enter he
  have hmembers : s.members + 1 = (ms ++ [m]).length := by
    rw [List.length_append, hi.members]
    rfl
  rcases hcase with ⟨hdir, rfl⟩ | ⟨hdir, hp, rfl, hlimit⟩
  · have hb : below (ms ++ [m]) = below ms := below_concat.trans (if_pos hdir)
    exact ⟨hmembers, .inr hwithin, hsafe, hrooted, by rw [hb]; exact hi.files, by rw [hb]; exact hi.seen, hi.distinct,
      by rw [hb]; exact hi.placed, by rw [hb]; exact hi.scanned, hi.counted, hi.stored, hi.limit⟩
  · have hb : below (ms ++ [m]) = below ms ++ [m] := below_concat.trans (if_neg hdir)
    have hseen : m.path :: s.seen = ((below (ms ++ [m])).map Member.path).reverse := by
      rw [hb, hi.seen]
      simp
    have hdistinct : (m.path :: s.seen).Nodup := List.nodup_cons.2 ⟨hp.fresh, hi.distinct⟩
    have hplaced : ∀ x ∈ below (ms ++ [m]), 2 ≤ x.components.length ∧ x.path.length ≤ 512 := by
      intro x hx
      rw [hb] at hx
      rcases List.mem_append.1 hx with hx | hx
      · exact hi.placed x hx
      · rw [List.mem_singleton.1 hx]
        exact ⟨hp.below, hp.short⟩
    have hscanned : s.scanned + 1 = (below (ms ++ [m])).length := by
      rw [hb, List.length_append, hi.scanned]
      rfl
    have hfiles : (below (ms ++ [m])).filterMap (kept u sha256 limits) =
        s.files ++ (kept u sha256 limits m).toList := by
      rw [hb, List.filterMap_append, ← hi.files]
      cases hk : kept u sha256 limits m <;> simp [hk]
    cases hk : kept u sha256 limits m with
    | none =>
      rw [hk] at hfiles
      refine ⟨hmembers, .inr hwithin, hsafe, hrooted, ?_, hseen, hdistinct, hplaced, hscanned, ?_, hi.stored, hi.limit⟩
      · rw [hfiles]
        exact (List.append_nil _).symm
      · have hcounted := hi.counted
        change s.scanned + 1 = s.files.length + (s.skipped + 1)
        omega
    | some f =>
      rw [hk] at hfiles hlimit
      refine ⟨hmembers, .inr hwithin, hsafe, hrooted, hfiles.symm, hseen, hdistinct, hplaced, hscanned, ?_, ?_,
        .inr (hlimit.resolve_left nofun)⟩
      · have hcounted := hi.counted
        change s.scanned + 1 = (s.files ++ [f]).length + s.skipped
        rw [List.length_append, List.length_singleton]
        omega
      · change s.stored + f.size = ((s.files ++ [f]).map (·.size)).sum
        rw [hi.stored]
        simp

theorem Scan.Inv.run {ms ms' : List Member} {s s' : Scan} (hi : Scan.Inv u sha256 limits ms s)
    (h : ms'.foldlM (Scan.step u sha256 limits) s = .ok s') : Scan.Inv u sha256 limits (ms ++ ms') s' := by
  induction ms' generalizing ms s with
  | nil =>
    cases h
    rwa [List.append_nil]
  | cons m ms' ih =>
    rw [List.foldlM_cons, bind_ok] at h
    obtain ⟨s₁, hstep, hrest⟩ := h
    have hnext := ih (hi.step hstep) hrest
    rwa [List.append_assoc] at hnext

theorem readArchive_ok {tar : Tar} {result : Result} (h : readArchive u sha256 limits tar = .ok result) :
    ∃ s, Scan.Inv u sha256 limits tar.members s ∧ s.files ≠ [] ∧ result = ⟨s.files, s.scanned, s.skipped⟩ := by
  unfold readArchive at h
  split at h
  · cases h
  · rename_i s hs
    split at h
    · cases h
    · split at h
      · cases h
      · rename_i hfiles
        cases h
        exact ⟨s, Scan.Inv.start.run hs, hfiles, rfl⟩

/-! ### What is kept is safe -/

theorem decodeUtf8_eq_some {content : List UInt8} {text : Text} (h : decodeUtf8 content = some text) :
    Framing.encode text = content := by
  unfold decodeUtf8 at h
  split at h
  · rename_i text' hd
    cases h
    exact Framing.encode_decode (p := []) trivial hd
  · cases h

theorem textOf_eq_some {content : List UInt8} {text : Text} (h : textOf limits content = some text) :
    (content.length : Int) ≤ limits.fileBytes ∧ 0 ∉ content ∧ Framing.encode text = content := by
  unfold textOf at h
  split at h
  · cases h
  · rename_i hc
    obtain ⟨hlength, hnul⟩ := not_or.1 hc
    exact ⟨Int.not_lt.1 hlength, hnul, decodeUtf8_eq_some (Option.filter_eq_some_iff.1 h).1⟩

/-- What fits was read to its end. -/
theorem readable_eq {data : List UInt8} (h : ((readable limits data).length : Int) ≤ limits.fileBytes) :
    readable limits data = data := by
  unfold readable at h ⊢
  rw [List.length_take] at h
  exact List.take_of_length_le (by omega)

variable (u limits) in
/-- The member is a file that is stored. -/
structure Stored (m : Member) (data : List UInt8) (text : Text) : Prop where
  regular : m.kind = .regular
  dense : m.sparse = false
  included : ¬ Excluded u m
  unsecret : u.lower m.last ∉ secretNames.map points
  read : m.data = .ok (some data)
  within : (data.length : Int) ≤ limits.fileBytes
  unterminated : 0 ∉ data
  text : Framing.encode text = data

theorem kept_eq_some {m : Member} {f : File} (h : kept u sha256 limits m = some f) :
    ∃ data text, Stored u limits m data text ∧ f = fileOf u sha256 m data text := by
  unfold kept at h
  split at h
  · cases h
  rename_i hk
  obtain ⟨-, hskip⟩ := not_or.1 hk
  unfold Skipped at hskip
  simp only [not_or, not_not] at hskip
  obtain ⟨hregular, hdense, hincluded, hsecret, -, -, -⟩ := hskip
  split at h
  · rename_i data hdata
    obtain ⟨text, htext, rfl⟩ := Option.map_eq_some_iff.1 h
    obtain ⟨hlength, hnul, hencode⟩ := textOf_eq_some htext
    have hread := readable_eq hlength
    rw [hread] at hlength hnul hencode ⊢
    exact ⟨data, text, ⟨hregular, Bool.not_eq_true _ ▸ hdense, hincluded, hsecret, hdata, hlength, hnul, hencode⟩, rfl⟩
  · cases h

theorem Scan.Inv.mem_files {ms : List Member} {s : Scan} (hi : Scan.Inv u sha256 limits ms s) {f : File} :
    f ∈ s.files ↔ ∃ m ∈ ms, m ∈ below ms ∧ kept u sha256 limits m = some f := by
  rw [hi.files, List.mem_filterMap]
  constructor
  · rintro ⟨m, hm, hk⟩
    exact ⟨m, (List.mem_filter.1 hm).1, hm, hk⟩
  · rintro ⟨m, -, hm, hk⟩
    exact ⟨m, hm, hk⟩

/-- Only members below the root are kept. -/
theorem mem_below_of_kept {ms : List Member} {m : Member} {f : File} (hm : m ∈ ms)
    (hk : kept u sha256 limits m = some f) : m ∈ below ms := by
  obtain ⟨_, _, hstored, -⟩ := kept_eq_some hk
  refine List.mem_filter.2 ⟨hm, decide_eq_true ?_⟩
  rw [hstored.regular]
  decide

variable (u) in
/-- The path can be stored below any directory. -/
structure SafePath (path : Name) : Prop where
  length : path.length ≤ 512
  relative : path.head? ≠ some slash
  solid : ∀ part ∈ parts path, ¬ Hollow part
  clean : ∀ c ∈ path, c ≠ .char '\\' ∧ c ≠ .char ':' ∧ ¬ Control c
  included : ∀ part ∈ parts path, part ∉ ignored.map points ∧ ¬ EnvLike part
  unsecret : ∀ base, (parts path).getLast? = some base →
    base ∉ secretNames.map points ∧ u.lower base ∉ secretNames.map points

/-- The path of a safe name below the root is safe. -/
theorem safePath_of_member {m : Member} (hsafe : ¬ Unsafe (stripped m.name)) (hbelow : 2 ≤ m.components.length)
    (hlength : m.path.length ≤ 512) (hincluded : ¬ Excluded u m)
    (hsecret : u.lower m.last ∉ secretNames.map points) : SafePath u m.path := by
  unfold Unsafe at hsafe
  simp only [not_or] at hsafe
  obtain ⟨-, -, -, hbackslash, hsolid, hcontrol, hcolon⟩ := hsafe
  have hmem : ∀ c ∈ m.path, c ∈ stripped m.name := fun c hc => (path_suffix hbelow).subset hc
  have hparts : ∀ part ∈ parts m.path, ¬ Hollow part := by
    intro part hp hhollow
    rw [parts_path hbelow] at hp
    exact hsolid ⟨part, List.mem_of_mem_drop hp, hhollow⟩
  refine ⟨hlength, ?_, hparts, ?_, ?_, ?_⟩
  · intro hhead
    cases hpath : m.path with
    | nil =>
      rw [hpath] at hhead
      cases hhead
    | cons c rest =>
      rw [hpath] at hhead hparts
      cases hhead
      refine hparts [] ?_ (.inl rfl)
      unfold parts
      rw [List.splitOn_cons_eq_if_modifyHead, if_pos (beq_self_eq_true _)]
      exact List.mem_cons_self
  · intro c hc
    refine ⟨?_, ?_, fun hctl => hcontrol ⟨c, hmem c hc, hctl⟩⟩
    · rintro rfl
      exact hbackslash (hmem _ hc)
    · rintro rfl
      exact hcolon (hmem _ hc)
  · intro part hp
    rw [parts_path hbelow] at hp
    exact ⟨fun hi => hincluded ⟨part, hp, .inl hi⟩, fun he => hincluded ⟨part, hp, .inr (env_of_envLike he)⟩⟩
  · intro base hb
    rw [last_path hbelow] at hb
    cases hb
    exact ⟨fun hs => hsecret (secret_lower hs), hsecret⟩

variable (sha256 limits) in
/-- The file is a regular member of the archive, with its content. -/
structure Genuine (tar : Tar) (f : File) : Prop where
  source : ∃ m ∈ tar.members, m.kind = .regular ∧ m.sparse = false ∧ m.path = f.path ∧
    m.data = .ok (some (Framing.encode f.content))
  unterminated : '\x00' ∉ f.content
  within : (f.size : Int) ≤ limits.fileBytes
  size : f.size = (Framing.encode f.content).length
  hash : f.contentHash = sha256 (Framing.encode f.content)

variable (u sha256 limits) in
/-- All that holds of what `read_archive` returns. -/
structure Sound (tar : Tar) (result : Result) : Prop where
  distinct : (result.files.map (·.path)).Nodup
  safe : ∀ f ∈ result.files, SafePath u f.path
  genuine : ∀ f ∈ result.files, Genuine sha256 limits tar f
  total : ((result.files.map (·.size)).sum : Nat) ≤ limits.storedBytes
  bounded : (tar.members.length : Int) ≤ limits.members
  rooted : ∃ root, ∀ m ∈ tar.members, m.components.head? = some root
  once : result.scanned = (below tar.members).length
  counted : result.scanned = result.files.length + result.skipped

theorem nul_mem_encode {t : Text} (h : '\x00' ∈ t) : 0 ∈ Framing.encode t :=
  List.mem_flatMap.2 ⟨'\x00', h, by decide⟩

/-- The paths of kept members are among those of all members below the root. -/
theorem kept_paths_sublist (ms : List Member) :
    List.Sublist ((ms.filterMap (kept u sha256 limits)).map (·.path)) (ms.map Member.path) := by
  induction ms with
  | nil => exact List.Sublist.slnil
  | cons m ms ih =>
    cases hk : kept u sha256 limits m with
    | none =>
      rw [List.filterMap_cons_none hk, List.map_cons]
      exact ih.cons _
    | some f =>
      obtain ⟨data, text, -, rfl⟩ := kept_eq_some hk
      rw [List.filterMap_cons_some hk, List.map_cons, List.map_cons]
      exact ih.cons_cons _

theorem Sound.of_ok {tar : Tar} {result : Result} (h : readArchive u sha256 limits tar = .ok result) :
    Sound u sha256 limits tar result := by
  obtain ⟨s, hi, hfiles, rfl⟩ := readArchive_ok h
  have hmembers : tar.members ≠ [] := by
    intro hnil
    have hnone := hi.files
    rw [hnil] at hnone
    exact hfiles hnone
  refine ⟨?_, ?_, ?_, ?_, hi.within.resolve_left hmembers, ?_, hi.scanned, hi.counted⟩
  · have hseen := hi.distinct
    rw [hi.seen, List.nodup_reverse] at hseen
    change (s.files.map (·.path)).Nodup
    rw [hi.files]
    exact hseen.sublist (kept_paths_sublist _)
  · intro f hf
    obtain ⟨m, hm, hb, hk⟩ := hi.mem_files.1 hf
    obtain ⟨data, text, hstored, rfl⟩ := kept_eq_some hk
    obtain ⟨hbelow, hlength⟩ := hi.placed m hb
    exact safePath_of_member (hi.safe m hm) hbelow hlength hstored.included hstored.unsecret
  · intro f hf
    obtain ⟨m, hm, -, hk⟩ := hi.mem_files.1 hf
    obtain ⟨data, text, hstored, rfl⟩ := kept_eq_some hk
    have hencode : Framing.encode text = data := hstored.text
    subst hencode
    exact ⟨⟨m, hm, hstored.regular, hstored.dense, rfl, hstored.read⟩,
      fun hnul => hstored.unterminated (nul_mem_encode hnul), hstored.within, rfl, rfl⟩
  · have hlimit := hi.limit.resolve_left hfiles
    rw [hi.stored] at hlimit
    exact hlimit
  · obtain ⟨m, hm⟩ := List.exists_mem_of_ne_nil _ hmembers
    cases hroot : s.root with
    | none =>
      have hnone := (hi.rooted m hm).trans hroot
      exact absurd (List.head?_eq_none_iff.1 hnone) components_ne_nil
    | some root => exact ⟨root, fun x hx => (hi.rooted x hx).trans hroot⟩

/-- Whatever the members and the limits are, what is returned is safe. -/
theorem readArchive_sound (u : LowerCase) (sha256 : List UInt8 → Text) (limits : ArchiveLimits) (tar : Tar)
    (result : Result) (h : readArchive u sha256 limits tar = .ok result) : Sound u sha256 limits tar result :=
  .of_ok h

/-- `str.lower`, if no other letters have cases. -/
def asciiCase : LowerCase where
  lower := List.map Point.asciiLower
  ascii := fun _ _ => rfl
  ascii_append := fun a s _ => by
    rw [List.map_append]
    exact List.prefix_append _ _

/-- A directory and a file of one byte. -/
def sample (name : Name) : Tar where
  members := [⟨points "r/", .directory, false, 0, .ok none⟩, ⟨points "r/" ++ name, .regular, false, 1, .ok (some [120])⟩]
  ending := none

/-- A digest of 64 characters. -/
def zeros : List UInt8 → Text := fun _ => List.replicate 64 '0'

/-- Two source files between a link, a dependency, a file with secrets and an image. -/
def mixed : Tar where
  members := [⟨points "r/", .directory, false, 0, .ok none⟩,
    ⟨points "r/a.py", .regular, false, 1, .ok (some [120])⟩,
    ⟨points "r/link.py", .other, false, 0, .ok none⟩,
    ⟨points "r/node_modules/b.js", .regular, false, 1, .ok (some [120])⟩,
    ⟨points "r/.env", .regular, false, 1, .ok (some [120])⟩,
    ⟨points "r/logo.png", .regular, false, 1, .ok (some [137])⟩,
    ⟨points "r/src/c.ts", .regular, false, 2, .ok (some [120, 10])⟩]
  ending := none

theorem readArchive_sound_sample :
    Sound asciiCase zeros .default mixed
      ⟨[⟨points "a.py", "python", ['x'], 1, zeros [120]⟩,
        ⟨points "src/c.ts", "typescript", ['x', '\n'], 2, zeros [120, 10]⟩], 6, 4⟩ :=
  readArchive_sound asciiCase zeros .default mixed _ (by rfl)

/-! ### Storing what was read -/

def Point.toChar? : Point → Option Char
  | .char c => some c
  | .surrogate _ => none

/-- The value of a `String` column: text without surrogates and NUL, as far as the column is wide. -/
def column (width : Nat) (value : Name) : Option Text :=
  (value.mapM Point.toChar?).filter fun text => '\x00' ∉ text ∧ text.length ≤ width

/-- The row of a file that fits the columns of `RepositoryFile`. -/
def row (f : File) : Option ImportedFile :=
  (column 512 f.path).bind fun path =>
    if f.language.length ≤ 30 ∧ f.size < 2 ^ 31 ∧ f.contentHash.length ≤ 64 ∧ '\x00' ∉ f.content then
      some ⟨path, f.language, f.content, f.size, f.contentHash⟩
    else none

/-- The result whose rows `publish_result` can insert. -/
def insertable (result : Result) : Option ArchiveResult :=
  (result.files.mapM row).bind fun files =>
    if h : (files.map (·.path)).Nodup then some ⟨files, result.scanned, result.skipped, h⟩ else none

/-- The name decodes to characters only. -/
def Encodable (name : Name) : Prop := ∀ c ∈ name, ∃ d, c = .char d

theorem mapM_toChar_eq_some {name : Name} {text : Text} :
    name.mapM Point.toChar? = some text ↔ name = text.map .char := by
  induction name generalizing text with
  | nil =>
    cases text with
    | nil => exact iff_of_true rfl rfl
    | cons => exact iff_of_false nofun nofun
  | cons c name ih =>
    rw [List.mapM_cons]
    cases c with
    | surrogate n =>
      refine iff_of_false nofun fun h => ?_
      cases text <;> simp at h
    | char d =>
      simp only [Point.toChar?, Option.pure_def, Option.bind_eq_bind, Option.bind_some, Option.bind_eq_some_iff,
        Option.some.injEq]
      constructor
      · rintro ⟨rest, hrest, rfl⟩
        rw [ih.1 hrest]
        rfl
      · intro h
        cases text with
        | nil => cases h
        | cons e text =>
          rw [List.map_cons, List.cons.injEq, Point.char.injEq] at h
          obtain ⟨rfl, h⟩ := h
          exact ⟨text, ih.2 h, rfl⟩

theorem encodable_iff {name : Name} : Encodable name ↔ ∃ text : Text, name = text.map .char := by
  constructor
  · intro h
    induction name with
    | nil => exact ⟨[], rfl⟩
    | cons c name ih =>
      obtain ⟨text, rfl⟩ := ih fun d hd => h d (List.mem_cons_of_mem _ hd)
      obtain ⟨d, rfl⟩ := h c List.mem_cons_self
      exact ⟨d :: text, rfl⟩
  · rintro ⟨text, rfl⟩ c hc
    obtain ⟨d, -, rfl⟩ := List.mem_map.1 hc
    exact ⟨d, rfl⟩

theorem languageOf_length {name : Name} : ((languageOf name).getD "text").length ≤ 30 := by
  have htable : ∀ l ∈ languages, l.2.length ≤ 30 := by decide
  unfold languageOf
  cases hf : languages.find? fun l => points l.1 = name with
  | none => decide
  | some l => exact htable l (List.mem_of_find?_eq_some hf)

/-- A safe path fits its column unless it holds a surrogate. -/
theorem column_path {path : Name} (hs : SafePath u path) {text : Text} :
    column 512 path = some text ↔ path = text.map .char := by
  unfold column
  rw [Option.filter_eq_some_iff, mapM_toChar_eq_some, decide_eq_true_eq]
  refine and_iff_left_of_imp ?_
  rintro rfl
  refine ⟨fun hnul => ?_, ?_⟩
  · have hcontrol := (hs.clean _ (List.mem_map_of_mem hnul)).2.2
    exact hcontrol (.inl (by decide))
  · have hlength := hs.length
    rwa [List.length_map] at hlength

theorem row_isSome {tar : Tar} {f : File} (hs : SafePath u f.path) (hg : Genuine sha256 .default tar f)
    (hhash : f.contentHash.length = 64) (hlanguage : f.language.length ≤ 30) :
    (row f).isSome ↔ Encodable f.path := by
  have hsize : f.size < 2 ^ 31 := by
    have hwithin : (f.size : Int) ≤ 256 * 1024 := hg.within
    omega
  have hfits : f.language.length ≤ 30 ∧ f.size < 2 ^ 31 ∧ f.contentHash.length ≤ 64 ∧ '\x00' ∉ f.content :=
    ⟨hlanguage, hsize, hhash.le, hg.unterminated⟩
  unfold row
  simp only [if_pos hfits]
  rw [encodable_iff, Option.isSome_iff_exists]
  constructor
  · rintro ⟨x, hx⟩
    obtain ⟨text, htext, -⟩ := Option.bind_eq_some_iff.1 hx
    exact ⟨text, (column_path hs).1 htext⟩
  · rintro ⟨text, htext⟩
    exact ⟨_, Option.bind_eq_some_iff.2 ⟨text, (column_path hs).2 htext, rfl⟩⟩

theorem row_path {f : File} {x : ImportedFile} (h : row f = some x) : f.path = x.path.map .char := by
  unfold row at h
  obtain ⟨path, hpath, h⟩ := Option.bind_eq_some_iff.1 h
  split at h
  · cases h
    exact mapM_toChar_eq_some.1 (Option.filter_eq_some_iff.1 hpath).1
  · cases h

theorem rows_paths {files : List File} {rows : List ImportedFile} (h : files.mapM row = some rows) :
    files.map (·.path) = rows.map fun x => x.path.map .char := by
  induction files generalizing rows with
  | nil =>
    cases h
    rfl
  | cons f files ih =>
    rw [List.mapM_cons] at h
    obtain ⟨x, hx, h⟩ := Option.bind_eq_some_iff.1 h
    obtain ⟨rest, hrest, h⟩ := Option.bind_eq_some_iff.1 h
    cases h
    rw [List.map_cons, List.map_cons, row_path hx, ih hrest]

theorem rows_isSome {files : List File} : (files.mapM row).isSome ↔ ∀ f ∈ files, (row f).isSome := by
  induction files with
  | nil => simp
  | cons f files ih =>
    rw [List.mapM_cons, List.forall_mem_cons, ← ih]
    cases row f with
    | none => simp
    | some x => cases files.mapM row <;> simp

/-- Rows with distinct paths can be inserted. -/
theorem insertable_isSome {result : Result} (h : (result.files.map (·.path)).Nodup) :
    (insertable result).isSome ↔ ∀ f ∈ result.files, (row f).isSome := by
  rw [← rows_isSome]
  unfold insertable
  cases hr : result.files.mapM row with
  | none => simp
  | some rows =>
    have hpaths : (rows.map (·.path)).Nodup := by
      rw [rows_paths hr] at h
      have hmap : (rows.map fun x => x.path.map Point.char) = (rows.map (·.path)).map (List.map Point.char) := by
        rw [List.map_map]
        rfl
      rw [hmap] at h
      exact h.of_map _
    rw [Option.bind_some, dif_pos hpaths]
    exact iff_of_true rfl rfl

/-- What is read can be inserted exactly if no member that is stored has a surrogate in its path. -/
theorem insertable_iff (u : LowerCase) (sha256 : List UInt8 → Text) (hhash : ∀ content, (sha256 content).length = 64)
    (tar : Tar) (result : Result) (h : readArchive u sha256 .default tar = .ok result) :
    (insertable result).isSome ↔
      ∀ m ∈ tar.members, (kept u sha256 .default m).isSome → Encodable m.path := by
  have hsound := Sound.of_ok h
  obtain ⟨s, hi, -, rfl⟩ := readArchive_ok h
  have hrow : ∀ m ∈ tar.members, ∀ f, kept u sha256 .default m = some f → ((row f).isSome ↔ Encodable m.path) := by
    intro m hm f hk
    have hf : f ∈ s.files := hi.mem_files.2 ⟨m, hm, mem_below_of_kept hm hk, hk⟩
    have hsafe := hsound.safe f hf
    have hgenuine := hsound.genuine f hf
    obtain ⟨data, text, -, rfl⟩ := kept_eq_some hk
    exact row_isSome hsafe hgenuine (hhash data) languageOf_length
  rw [insertable_isSome hsound.distinct]
  constructor
  · intro hall m hm hk
    obtain ⟨f, hf⟩ := Option.isSome_iff_exists.1 hk
    exact (hrow m hm f hf).1 (hall f (hi.mem_files.2 ⟨m, hm, mem_below_of_kept hm hf, hf⟩))
  · intro hall f hf
    obtain ⟨m, hm, -, hk⟩ := hi.mem_files.1 hf
    exact (hrow m hm f hk).2 (hall m hm (Option.isSome_iff_exists.2 ⟨f, hk⟩))

theorem insertable_iff_sample :
    (insertable ⟨[⟨points "a.py", "python", ['x'], 1, List.replicate 64 '0'⟩], 1, 0⟩).isSome ↔
      ∀ m ∈ (sample (points "a.py")).members, (kept asciiCase zeros .default m).isSome → Encodable m.path :=
  insertable_iff asciiCase zeros (fun _ => rfl) (sample (points "a.py")) _ (by rfl)

/-- A file whose name is the byte `0xFF` and `.py`. -/
theorem not_insertable_surrogate :
    ¬ ∀ (u : LowerCase) (sha256 : List UInt8 → Text), (∀ content, (sha256 content).length = 64) →
      ∀ (tar : Tar) (result : Result), readArchive u sha256 .default tar = .ok result → (insertable result).isSome := by
  intro h
  have hsome := h asciiCase zeros (fun _ => rfl) (sample (.surrogate 1279 :: points ".py"))
    ⟨[⟨.surrogate 1279 :: points ".py", "python", ['x'], 1, List.replicate 64 '0'⟩], 1, 0⟩ (by rfl)
  exact absurd hsome (by decide)

end Archive
end RepoPilot
