import RepoPilot.Basic

/-! # Sessions

A token is good for the user it was issued to until it expires, is logged out or is presented as the previous
token of a later registration or login that succeeds. The table of sessions holds, by their hashes, exactly
the tokens that are good, and some that have expired. -/

namespace RepoPilot
namespace Auth

/-! ### Grants

What is granted and revoked along a trace. -/

section Grants
variable {ε κ ν : Type} (grants : ε → κ → ν → Prop) (revokes : ε → κ → Prop)

/-- `k` was granted `v`, and no later event revokes it. -/
def Held (trace : List ε) (k : κ) (v : ν) : Prop :=
  ∃ before e after, trace = before ++ e :: after ∧ grants e k v ∧ ∀ e' ∈ after, ¬ revokes e' k

variable {grants revokes}

theorem not_held_nil {k : κ} {v : ν} : ¬ Held grants revokes [] k v := by
  rintro ⟨before, e, after, h, -⟩
  exact absurd h (by simp)

/-- The last event may grant or revoke; all else stays. -/
theorem held_concat {trace : List ε} {e : ε} {k : κ} {v : ν} :
    Held grants revokes (trace ++ [e]) k v ↔ grants e k v ∨ Held grants revokes trace k v ∧ ¬ revokes e k := by
  constructor
  · rintro ⟨before, e', after, h, hg, hr⟩
    rcases List.eq_nil_or_concat after with rfl | ⟨after, last, rfl⟩
    · obtain ⟨-, he⟩ := List.append_inj' h rfl
      obtain rfl : e = e' := by simpa using he
      exact .inl hg
    · rw [List.concat_eq_append, ← List.cons_append, ← List.append_assoc] at h
      obtain ⟨rfl, he⟩ := List.append_inj' h rfl
      obtain rfl : e = last := by simpa using he
      refine .inr ⟨⟨before, e', after, rfl, hg, fun e'' h' => hr e'' ?_⟩, hr e ?_⟩
      · simp [h']
      · simp
  · rintro (hg | ⟨⟨before, e', after, rfl, hg, hr⟩, hlast⟩)
    · exact ⟨trace, e, [], rfl, hg, List.forall_mem_nil _⟩
    · refine ⟨before, e', after ++ [e], by simp, hg, fun e'' h' => ?_⟩
      rcases List.mem_append.1 h' with h' | h'
      · exact hr e'' h'
      · rwa [List.mem_singleton.1 h']

end Grants

/-! ### Tables -/

structure User where
  id : Uuid
  email : Text
  name : Text
  passwordHash : Text
  deriving DecidableEq

structure Session where
  tokenHash : Text
  userId : Uuid
  expiresAt : Time
  deriving DecidableEq

structure Db where
  users : List User
  sessions : List Session

/-- The hashes and the configuration of the service. -/
structure Env where
  tokenHash : Text → Text
  csrfToken : Text → Text
  verifyPassword : Text → Text → Bool
  needsRehash : Text → Bool
  dummyHash : Text
  lifetimeHours : Nat

structure Identity where
  user : User
  session : Session
  token : Text
  deriving DecidableEq

/-- `[A-Za-z0-9_-]{43}\Z`. -/
def ValidToken (token : Text) : Prop :=
  token.length = 43 ∧ ∀ c ∈ token, 'A' ≤ c ∧ c ≤ 'Z' ∨ 'a' ≤ c ∧ c ≤ 'z' ∨ '0' ≤ c ∧ c ≤ '9' ∨ c = '_' ∨ c = '-'

instance (token : Text) : Decidable (ValidToken token) := inferInstanceAs (Decidable (_ ∧ _))

/-! ### `AuthRepository` -/

def Db.findUser (db : Db) (email : Text) : Option User := db.users.find? (·.email = email)

/-- The join of a session with its user. -/
def Db.findSession (db : Db) (digest : Text) (now : Time) : Option (User × Session) :=
  (db.sessions.filter fun s => s.tokenHash = digest ∧ now < s.expiresAt).findSome? fun s =>
    (db.users.find? (·.id = s.userId)).map (·, s)

def deleteSession (digest : Text) (sessions : List Session) : List Session :=
  sessions.filter (·.tokenHash ≠ digest)

def deleteExpiredSessions (now : Time) (sessions : List Session) : List Session :=
  sessions.filter fun s => ¬ s.expiresAt ≤ now

/-! ### `AuthService` -/

/-- What a registration or login brings along: the request, and what the hasher, the token generator and the clock
return in it. -/
structure Attempt where
  email : Text
  password : Text
  previous : Option Text
  passwordHash : Text
  raw : Text
  cleanupAt : Time
  issuedAt : Time

variable (env : Env)

/-- The sessions a new one joins. -/
def kept (a : Attempt) (sessions : List Session) : List Session :=
  deleteExpiredSessions a.cleanupAt (match a.previous with
    | some previous => if ValidToken previous then deleteSession (env.tokenHash previous) sessions else sessions
    | none => sessions)

def sessionOf (a : Attempt) (user : User) : Session :=
  ⟨env.tokenHash a.raw, user.id, a.issuedAt + hours env.lifetimeHours⟩

/-- `_new_session` and the commit; `none` when the hash is taken. -/
def newSession (db : Db) (user : User) (a : Attempt) : Option (Identity × Db) :=
  if ∃ s ∈ kept env a db.sessions, s.tokenHash = env.tokenHash a.raw then none
  else some (⟨user, sessionOf env a user, a.raw⟩,
    { db with sessions := kept env a db.sessions ++ [sessionOf env a user] })

def registered (a : Attempt) (name : Text) (id : Uuid) : User := ⟨id, a.email, name, a.passwordHash⟩

def register (db : Db) (a : Attempt) (name : Text) (id : Uuid) : Except Raised Identity × Db :=
  if (db.findUser a.email).isSome then
    (.error (.app ⟨"account_unavailable", "Unable to create an account with this email.", 409⟩), db)
  else if ∃ u ∈ db.users, u.id = id then (.error .other, db)
  else
    match newSession env { db with users := db.users ++ [registered a name id] } (registered a name id) a with
    | none => (.error .other, db)
    | some (identity, db') => (.ok identity, db')

/-- The user with a hash of current cost. -/
def rehashed (a : Attempt) (user : User) : User :=
  if env.needsRehash user.passwordHash then { user with passwordHash := a.passwordHash } else user

def invalidCredentials : AppError := ⟨"invalid_credentials", "Email or password is incorrect.", 401⟩

def login (db : Db) (a : Attempt) : Except Raised Identity × Db :=
  match db.findUser a.email with
  | none => (.error (.app invalidCredentials), db)
  | some user =>
    if env.verifyPassword user.passwordHash a.password then
      match newSession env
        { db with users := db.users.map fun u => if u.id = user.id then rehashed env a u else u }
        (rehashed env a user) a with
      | none => (.error .other, db)
      | some (identity, db') => (.ok identity, db')
    else (.error (.app invalidCredentials), db)

def unauthenticated : AppError := ⟨"unauthenticated", "Please sign in to continue.", 401⟩

def authenticate (db : Db) (raw : Option Text) (now : Time) : Except Raised Identity :=
  match raw with
  | none => .error (.app unauthenticated)
  | some raw =>
    if ValidToken raw then
      match db.findSession (env.tokenHash raw) now with
      | none => .error (.app unauthenticated)
      | some (user, session) => .ok ⟨user, session, raw⟩
    else .error (.app unauthenticated)

/-- `require_csrf`, after the browser was checked. -/
def requireCsrf (db : Db) (cookie : Option Text) (supplied : Text) (now : Time) : Except Raised Identity :=
  match authenticate env db cookie now with
  | .error e => .error e
  | .ok identity =>
    if supplied.length = 64 ∧ (∀ c ∈ supplied, c.toNat < 128) ∧ supplied = env.csrfToken identity.token then
      .ok identity
    else .error (.app ⟨"csrf_failed", "Session verification failed. Reload and try again.", 403⟩)

def logout (db : Db) (cookie : Option Text) (supplied : Text) (now : Time) : Except Raised Identity × Db :=
  match requireCsrf env db cookie supplied now with
  | .error e => (.error e, db)
  | .ok identity => (.ok identity, { db with sessions := deleteSession (env.tokenHash identity.token) db.sessions })

/-! ### Histories -/

/-- A request; `gate` is what the checks of browser and rate raise before the service is called. -/
inductive Request
  | register (gate : Option AppError) (a : Attempt) (name : Text) (id : Uuid)
  | login (gate : Option AppError) (a : Attempt)
  | logout (gate : Option AppError) (cookie : Option Text) (supplied : Text) (now : Time)

def serve (db : Db) : Request → Except Raised Identity × Db
  | .register none a name id => register env db a name id
  | .login none a => login env db a
  | .logout none cookie supplied now => logout env db cookie supplied now
  | .register (some e) _ _ _ | .login (some e) _ | .logout (some e) _ _ _ => (.error (.app e), db)

/-- A request and its answer. -/
abbrev Event := Request × Except Raised Identity

def run (db : Db) : List Request → List Event × Db
  | [] => ([], db)
  | r :: rs =>
    let (result, db') := serve env db r
    ((r, result) :: (run db' rs).1, (run db' rs).2)

def Request.attempt : Request → Option Attempt
  | .register _ a _ _ | .login _ a => some a
  | .logout .. => none

/-- The token a request presents. -/
def Request.presented : Request → Option Text
  | .register _ a _ _ | .login _ a => a.previous
  | .logout _ cookie _ _ => cookie

/-- The token was issued to the user at that time. -/
def Issues (e : Event) (t : Text) (v : Uuid × Time) : Prop :=
  ∃ a identity, e.1.attempt = some a ∧ e.2 = .ok identity ∧ t = a.raw ∧ v = (identity.user.id, a.issuedAt)

/-- The token was logged out, or presented in a registration or login that succeeded. -/
def Revokes (e : Event) (t : Text) : Prop := e.1.presented = some t ∧ ∃ identity, e.2 = .ok identity

/-- The token was issued, and not revoked since. -/
abbrev Good (trace : List Event) (t : Text) (v : Uuid × Time) : Prop := Held Issues Revokes trace t v

/-! ### What a request does -/

variable {env : Env} {db : Db}

/-- A request fails and changes nothing, opens a session, or closes one. -/
inductive Effect (env : Env) (db : Db) : Request → Except Raised Identity × Db → Prop
  | failed (r : Request) (e : Raised) : Effect env db r (.error e, db)
  | opened (r : Request) (a : Attempt) (user : User) (users : List User) (ha : r.attempt = some a)
      (hp : r.presented = a.previous) (hold : ∀ u ∈ db.users, ∃ u' ∈ users, u'.id = u.id)
      (hnew : ∃ u' ∈ users, u'.id = user.id) :
      Effect env db r (.ok ⟨user, sessionOf env a user, a.raw⟩,
        ⟨users, kept env a db.sessions ++ [sessionOf env a user]⟩)
  | closed (r : Request) (token : Text) (identity : Identity) (hr : r.attempt = none)
      (hp : r.presented = some token) :
      Effect env db r (.ok identity, ⟨db.users, deleteSession (env.tokenHash token) db.sessions⟩)

theorem rehashed_id (a : Attempt) (user : User) : (rehashed env a user).id = user.id := by
  unfold rehashed
  split <;> rfl

theorem register_effect (a : Attempt) (name : Text) (id : Uuid) :
    Effect env db (.register none a name id) (register env db a name id) := by
  unfold register
  split
  · exact .failed _ _
  · split
    · exact .failed _ _
    · unfold newSession
      split
      · exact .failed _ _
      · rename_i hmade
        split at hmade
        · cases hmade
        · cases hmade
          exact .opened _ a _ _ rfl rfl (fun u hu => ⟨u, List.mem_append_left _ hu, rfl⟩)
            ⟨_, List.mem_append_right _ List.mem_cons_self, rfl⟩

theorem login_effect (a : Attempt) : Effect env db (.login none a) (login env db a) := by
  unfold login
  split
  · exact .failed _ _
  · rename_i user huser
    split
    · unfold newSession
      split
      · exact .failed _ _
      · rename_i hmade
        split at hmade
        · cases hmade
        · cases hmade
          have hids : ∀ u ∈ db.users, ∃ u' ∈ db.users.map (fun u => if u.id = user.id then rehashed env a u else u),
              u'.id = u.id := by
            intro u hu
            refine ⟨_, List.mem_map_of_mem hu, ?_⟩
            split
            · exact rehashed_id a u
            · rfl
          refine .opened _ a _ _ rfl rfl hids ?_
          rw [rehashed_id]
          exact hids user (List.mem_of_find?_eq_some huser)
    · exact .failed _ _

theorem authenticate_ok {raw : Option Text} {now : Time} {identity : Identity}
    (h : authenticate env db raw now = .ok identity) :
    raw = some identity.token ∧ ValidToken identity.token ∧
      db.findSession (env.tokenHash identity.token) now = some (identity.user, identity.session) := by
  unfold authenticate at h
  split at h
  · cases h
  · split at h
    · rename_i hvalid
      split at h
      · cases h
      · rename_i hfound
        cases h
        exact ⟨rfl, hvalid, hfound⟩
    · cases h

theorem logout_effect (cookie : Option Text) (supplied : Text) (now : Time) :
    Effect env db (.logout none cookie supplied now) (logout env db cookie supplied now) := by
  unfold logout
  split
  · exact .failed _ _
  · rename_i identity hcsrf
    unfold requireCsrf at hcsrf
    split at hcsrf
    · cases hcsrf
    · rename_i identity' hauth
      split at hcsrf
      · cases hcsrf
        exact .closed _ _ _ rfl (authenticate_ok hauth).1
      · cases hcsrf

theorem serve_effect (r : Request) : Effect env db r (serve env db r) := by
  match r with
  | .register none a name id => exact register_effect a name id
  | .login none a => exact login_effect a
  | .logout none cookie supplied now => exact logout_effect cookie supplied now
  | .register (some e) a name id => exact .failed _ _
  | .login (some e) a => exact .failed _ _
  | .logout (some e) cookie supplied now => exact .failed _ _

/-! ### The table of sessions -/

variable {trace : List Event} {clock : Time} {known : Text → Prop} {future : List Text}

/-- The tokens in play have different hashes. -/
def Distinct (env : Env) (known : Text → Prop) : Prop :=
  ∀ x y, known x → known y → env.tokenHash x = env.tokenHash y → x = y

/-- The session of a token that is good. -/
def sessionFor (env : Env) (t : Text) (v : Uuid × Time) : Session :=
  ⟨env.tokenHash t, v.1, v.2 + hours env.lifetimeHours⟩

/-- The sessions are those of good tokens, and no token that is good and not expired is missing. The tokens
in `future` are still to be issued. -/
structure SessionInv (env : Env) (known : Text → Prop) (future : List Text) (trace : List Event) (db : Db)
    (clock : Time) : Prop where
  sound : ∀ s ∈ db.sessions, ∃ t v, Good trace t v ∧ s = sessionFor env t v
  complete : ∀ t v, Good trace t v → clock < v.2 + hours env.lifetimeHours → sessionFor env t v ∈ db.sessions
  users : ∀ s ∈ db.sessions, ∃ u ∈ db.users, u.id = s.userId
  single : ∀ t v v', Good trace t v → Good trace t v' → v = v'
  issued : ∀ t v, Good trace t v → known t ∧ ValidToken t ∧ t ∉ future

theorem SessionInv.init : SessionInv env known future [] ⟨[], []⟩ clock where
  sound := List.forall_mem_nil _
  complete := fun _ _ h => (not_held_nil h).elim
  users := List.forall_mem_nil _
  single := fun _ _ _ h => (not_held_nil h).elim
  issued := fun _ _ h => (not_held_nil h).elim

theorem good_concat_error {r : Request} {e : Raised} {t : Text} {v : Uuid × Time} :
    Good (trace ++ [(r, .error e)]) t v ↔ Good trace t v := by
  refine held_concat.trans ⟨?_, fun h => .inr ⟨h, ?_⟩⟩
  · rintro (⟨a, identity, -, h, -⟩ | ⟨h, -⟩)
    · cases h
    · exact h
  · rintro ⟨-, identity, h⟩
    cases h

theorem SessionInv.failed (h : SessionInv env known future trace db clock) {r : Request} {e : Raised}
    {clock' : Time} (hc : clock ≤ clock') : SessionInv env known future (trace ++ [(r, .error e)]) db clock' where
  sound := fun s hs =>
    let ⟨t, v, hgood, he⟩ := h.sound s hs
    ⟨t, v, good_concat_error.2 hgood, he⟩
  complete := fun t v hgood hlt => h.complete t v (good_concat_error.1 hgood) (lt_of_le_of_lt hc hlt)
  users := h.users
  single := fun t v v' hv hv' => h.single t v v' (good_concat_error.1 hv) (good_concat_error.1 hv')
  issued := fun t v hv => h.issued t v (good_concat_error.1 hv)

theorem mem_deleteSession {digest : Text} {sessions : List Session} {s : Session} :
    s ∈ deleteSession digest sessions ↔ s ∈ sessions ∧ s.tokenHash ≠ digest := by
  simp [deleteSession]

theorem mem_kept {a : Attempt} {sessions : List Session} {s : Session} :
    s ∈ kept env a sessions ↔ s ∈ sessions ∧ a.cleanupAt < s.expiresAt ∧
      ∀ p, a.previous = some p → ValidToken p → s.tokenHash ≠ env.tokenHash p := by
  unfold kept deleteExpiredSessions
  rw [List.mem_filter]
  cases hp : a.previous with
  | none => simp
  | some p =>
    by_cases hvalid : ValidToken p
    · simp only [if_pos hvalid, mem_deleteSession]
      simp [hvalid]
      tauto
    · simp only [if_neg hvalid]
      simp [hvalid]

theorem good_concat_closed {r : Request} {identity : Identity} (hr : r.attempt = none) {t : Text} {v : Uuid × Time} :
    Good (trace ++ [(r, .ok identity)]) t v ↔ Good trace t v ∧ r.presented ≠ some t := by
  refine held_concat.trans ⟨?_, fun ⟨h, hp⟩ => .inr ⟨h, fun hrev => hp hrev.1⟩⟩
  rintro (⟨a, _, ha, -⟩ | ⟨h, hrev⟩)
  · rw [hr] at ha
    cases ha
  · exact ⟨h, fun hp => hrev ⟨hp, identity, rfl⟩⟩

theorem SessionInv.closed (h : SessionInv env known future trace db clock) (hd : Distinct env known) {r : Request}
    {token : Text} {identity : Identity} (hr : r.attempt = none) (hp : r.presented = some token)
    (hknown : known token) {clock' : Time} (hc : clock ≤ clock') :
    SessionInv env known future (trace ++ [(r, .ok identity)])
      ⟨db.users, deleteSession (env.tokenHash token) db.sessions⟩ clock' := by
  have hgood : ∀ {t v}, Good (trace ++ [(r, .ok identity)]) t v → Good trace t v := fun h =>
    ((good_concat_closed hr).1 h).1
  refine ⟨fun s hs => ?_, fun t v hv hlt => ?_, fun s hs => ?_, fun t v v' hv hv' => ?_, fun t v hv => ?_⟩
  · obtain ⟨hs, hne⟩ := mem_deleteSession.1 hs
    obtain ⟨t, v, ht, rfl⟩ := h.sound s hs
    refine ⟨t, v, (good_concat_closed hr).2 ⟨ht, fun he => hne ?_⟩, rfl⟩
    rw [hp] at he
    rw [Option.some.inj he]
    rfl
  · obtain ⟨ht, hne⟩ := (good_concat_closed hr).1 hv
    refine mem_deleteSession.2 ⟨h.complete t v ht (lt_of_le_of_lt hc hlt), fun he => hne ?_⟩
    rw [hp, hd t token (h.issued t v ht).1 hknown he]
  · exact h.users s (mem_deleteSession.1 hs).1
  · exact h.single t v v' (hgood hv) (hgood hv')
  · exact h.issued t v (hgood hv)

theorem good_concat_opened {r : Request} {a : Attempt} {identity : Identity} (ha : r.attempt = some a)
    (hp : r.presented = a.previous) {t : Text} {v : Uuid × Time} :
    Good (trace ++ [(r, .ok identity)]) t v ↔
      t = a.raw ∧ v = (identity.user.id, a.issuedAt) ∨ Good trace t v ∧ a.previous ≠ some t := by
  refine held_concat.trans (or_congr ⟨?_, ?_⟩ (and_congr_right fun _ => ⟨fun hrev he => ?_, fun he hrev => ?_⟩))
  · rintro ⟨a', identity', ha', hi, ht, hv⟩
    obtain rfl : a = a' := Option.some.inj (ha.symm.trans ha')
    obtain rfl : identity = identity' := Except.ok.inj hi
    exact ⟨ht, hv⟩
  · rintro ⟨ht, hv⟩
    exact ⟨a, identity, ha, rfl, ht, hv⟩
  · exact hrev ⟨hp.trans he, identity, rfl⟩
  · exact he (hp.symm.trans hrev.1)

theorem SessionInv.opened {a : Attempt} (h : SessionInv env known (a.raw :: future) trace db clock)
    (hd : Distinct env known) {r : Request} {user : User} {users : List User} (ha : r.attempt = some a)
    (hp : r.presented = a.previous) (hold : ∀ u ∈ db.users, ∃ u' ∈ users, u'.id = u.id)
    (hnew : ∃ u' ∈ users, u'.id = user.id) (hraw : known a.raw ∧ ValidToken a.raw ∧ a.raw ∉ future)
    (hprevious : ∀ p, a.previous = some p → known p) (hc : clock ≤ a.cleanupAt) (hc' : a.cleanupAt ≤ a.issuedAt) :
    SessionInv env known future (trace ++ [(r, .ok ⟨user, sessionOf env a user, a.raw⟩)])
      ⟨users, kept env a db.sessions ++ [sessionOf env a user]⟩ a.issuedAt := by
  have hfresh : ∀ {v}, ¬ Good trace a.raw v := fun hv => (h.issued _ _ hv).2.2 List.mem_cons_self
  refine ⟨fun s hs => ?_, fun t v hv hlt => ?_, fun s hs => ?_, fun t v v' hv hv' => ?_, fun t v hv => ?_⟩
  · rcases List.mem_append.1 hs with hs | hs
    · obtain ⟨hs, -, hne⟩ := mem_kept.1 hs
      obtain ⟨t, v, ht, rfl⟩ := h.sound s hs
      refine ⟨t, v, (good_concat_opened ha hp).2 (.inr ⟨ht, fun he => ?_⟩), rfl⟩
      exact hne t he (h.issued t v ht).2.1 rfl
    · exact ⟨a.raw, (user.id, a.issuedAt), (good_concat_opened ha hp).2 (.inl ⟨rfl, rfl⟩), List.mem_singleton.1 hs⟩
  · rcases (good_concat_opened ha hp).1 hv with ⟨rfl, rfl⟩ | ⟨ht, hne⟩
    · exact List.mem_append_right _ (List.mem_singleton.2 rfl)
    · have hlive : a.cleanupAt < v.2 + hours env.lifetimeHours := lt_of_le_of_lt hc' hlt
      refine List.mem_append_left _ (mem_kept.2 ⟨h.complete t v ht (lt_of_le_of_lt hc hlive), hlive, ?_⟩)
      intro p hprev _ he
      exact hne (hprev.trans (congrArg some (hd t p (h.issued t v ht).1 (hprevious p hprev) he).symm))
  · rcases List.mem_append.1 hs with hs | hs
    · obtain ⟨u, hu, hid⟩ := h.users s (mem_kept.1 hs).1
      obtain ⟨u', hu', hid'⟩ := hold u hu
      exact ⟨u', hu', hid'.trans hid⟩
    · rw [List.mem_singleton.1 hs]
      exact hnew
  · rcases (good_concat_opened ha hp).1 hv with ⟨rfl, rfl⟩ | ⟨ht, -⟩
    · rcases (good_concat_opened ha hp).1 hv' with ⟨-, rfl⟩ | ⟨ht', -⟩
      · rfl
      · exact (hfresh ht').elim
    · rcases (good_concat_opened ha hp).1 hv' with ⟨rfl, -⟩ | ⟨ht', -⟩
      · exact (hfresh ht).elim
      · exact h.single t v v' ht ht'
  · rcases (good_concat_opened ha hp).1 hv with ⟨rfl, -⟩ | ⟨ht, -⟩
    · exact hraw
    · obtain ⟨h1, h2, h3⟩ := h.issued t v ht
      exact ⟨h1, h2, fun hmem => h3 (List.mem_cons_of_mem _ hmem)⟩

/-! ### Whole histories -/

/-- The tokens a history may issue, in order. -/
def raws (rs : List Request) : List Text := rs.filterMap fun r => r.attempt.map (·.raw)

/-- The tokens a request presents or may issue. -/
def Request.tokens (r : Request) : List Text := r.presented.toList ++ (r.attempt.map (·.raw)).toList

/-- The first and the last reading of the clock in a request. -/
def Request.times : Request → Time × Time
  | .register _ a _ _ | .login _ a => (a.cleanupAt, a.issuedAt)
  | .logout _ _ _ now => (now, now)

/-- The clock only advances, from `clock` to `now`. -/
def Ordered (clock : Time) (rs : List Request) (now : Time) : Prop :=
  match rs with
  | [] => clock ≤ now
  | r :: rs => clock ≤ r.times.1 ∧ r.times.1 ≤ r.times.2 ∧ Ordered r.times.2 rs now

theorem SessionInv.mono (h : SessionInv env known future trace db clock) {clock' : Time} (hc : clock ≤ clock')
    {future' : List Text} (hf : future' ⊆ future) : SessionInv env known future' trace db clock' where
  sound := h.sound
  complete := fun t v hv hlt => h.complete t v hv (lt_of_le_of_lt hc hlt)
  users := h.users
  single := h.single
  issued := fun t v hv =>
    let ⟨h1, h2, h3⟩ := h.issued t v hv
    ⟨h1, h2, fun hmem => h3 (hf hmem)⟩

/-- What is assumed of a request. -/
structure Proper (known : Text → Prop) (r : Request) : Prop where
  raw : ∀ a, r.attempt = some a → known a.raw ∧ ValidToken a.raw
  presented : ∀ p, r.presented = some p → known p

theorem SessionInv.serve {r : Request} {rs : List Request}
    (h : SessionInv env known (raws (r :: rs)) trace db clock) (hd : Distinct env known) (hr : Proper known r)
    (hfresh : (raws (r :: rs)).Nodup) (hc : clock ≤ r.times.1) (hc' : r.times.1 ≤ r.times.2) :
    SessionInv env known (raws rs) (trace ++ [(r, (serve env db r).1)]) (serve env db r).2 r.times.2 := by
  have hsub : raws rs ⊆ raws (r :: rs) := by
    intro t ht
    unfold raws at ht ⊢
    rw [List.filterMap_cons]
    split
    · exact ht
    · exact List.mem_cons_of_mem _ ht
  have heffect : Effect env db r (Auth.serve env db r) := serve_effect r
  generalize Auth.serve env db r = answer at heffect ⊢
  cases heffect with
  | failed e => exact (h.mono le_rfl hsub).failed (hc.trans hc')
  | opened a user users ha hp hold hnew =>
    have hraws : raws (r :: rs) = a.raw :: raws rs := by simp [raws, ha]
    have htimes : r.times = (a.cleanupAt, a.issuedAt) := by
      match r, ha with
      | .register _ a' _ _, ha | .login _ a', ha =>
        obtain rfl : a' = a := Option.some.inj ha
        rfl
    rw [hraws] at h hfresh
    rw [htimes] at hc hc' ⊢
    obtain ⟨hknown, hvalid⟩ := hr.raw a ha
    exact h.opened hd ha hp hold hnew ⟨hknown, hvalid, (List.nodup_cons.1 hfresh).1⟩
      (fun p hprev => hr.presented p (hp.trans hprev)) hc hc'
  | closed token identity hnone hp =>
    exact (h.mono le_rfl hsub).closed hd hnone hp (hr.presented token hp) (hc.trans hc')

theorem SessionInv.run {rs : List Request} (h : SessionInv env known (raws rs) trace db clock)
    (hd : Distinct env known) (hrs : ∀ r ∈ rs, Proper known r) (hfresh : (raws rs).Nodup) {now : Time}
    (ho : Ordered clock rs now) :
    SessionInv env known [] (trace ++ (run env db rs).1) (run env db rs).2 now := by
  induction rs generalizing trace db clock with
  | nil =>
    rw [show trace ++ (Auth.run env db []).1 = trace from List.append_nil _]
    exact h.mono ho (List.nil_subset _)
  | cons r rs ih =>
    obtain ⟨hr, hrs⟩ := List.forall_mem_cons.1 hrs
    obtain ⟨hc, hc', ho⟩ := ho
    have hfresh' : (raws rs).Nodup := by
      refine hfresh.sublist ?_
      unfold raws
      rw [List.filterMap_cons]
      split
      · exact List.Sublist.refl _
      · exact List.sublist_cons_self _ _
    have hnext := ih (h.serve hd hr hfresh hc hc') hrs hfresh' ho
    rw [List.append_assoc] at hnext
    exact hnext

/-- A history of requests up to `now`: the clock advances, fresh tokens are distinct and of the form of tokens, and
no two tokens in play, `t` among them, have the same hash. -/
structure History (env : Env) (clock : Time) (rs : List Request) (t : Text) (now : Time) : Prop where
  ordered : Ordered clock rs now
  fresh : (raws rs).Nodup
  valid : ∀ raw ∈ raws rs, ValidToken raw
  distinct : Distinct env (· ∈ t :: rs.flatMap Request.tokens)

theorem History.proper {rs : List Request} {t : Text} {now : Time} (h : History env clock rs t now) :
    ∀ r ∈ rs, Proper (· ∈ t :: rs.flatMap Request.tokens) r := by
  intro r hr
  refine ⟨fun a ha => ⟨?_, h.valid _ ?_⟩, fun p hp => ?_⟩
  · refine List.mem_cons_of_mem _ (List.mem_flatMap.2 ⟨r, hr, List.mem_append_right _ ?_⟩)
    rw [ha]
    exact List.mem_singleton.2 rfl
  · exact List.mem_filterMap.2 ⟨r, hr, by rw [ha]; rfl⟩
  · refine List.mem_cons_of_mem _ (List.mem_flatMap.2 ⟨r, hr, List.mem_append_left _ ?_⟩)
    rw [hp]
    exact List.mem_singleton.2 rfl

theorem findSession_some {digest : Text} {now : Time} {u : User} {s : Session}
    (h : db.findSession digest now = some (u, s)) :
    s ∈ db.sessions ∧ s.tokenHash = digest ∧ now < s.expiresAt ∧ u.id = s.userId := by
  unfold Db.findSession at h
  obtain ⟨s', hs', hu⟩ := List.exists_of_findSome?_eq_some h
  obtain ⟨u', hu', he⟩ := Option.map_eq_some_iff.1 hu
  obtain ⟨rfl, rfl⟩ := Prod.mk.inj he
  obtain ⟨hmem, hmatch⟩ := List.mem_filter.1 hs'
  obtain ⟨hhash, hlive⟩ := of_decide_eq_true hmatch
  exact ⟨hmem, hhash, hlive, by simpa using List.find?_some hu'⟩

theorem findSession_isSome {digest : Text} {now : Time} {s : Session} (hs : s ∈ db.sessions)
    (hhash : s.tokenHash = digest) (hlive : now < s.expiresAt) (hu : ∃ u ∈ db.users, u.id = s.userId) :
    ∃ r, db.findSession digest now = some r := by
  unfold Db.findSession
  rw [← Option.isSome_iff_exists, List.findSome?_isSome_iff]
  refine ⟨s, List.mem_filter.2 ⟨hs, by simp [hhash, hlive]⟩, ?_⟩
  rw [Option.isSome_map, List.find?_isSome]
  obtain ⟨u, hu, hid⟩ := hu
  exact ⟨u, hu, by simpa using hid⟩

/-- A token is accepted, for a user, exactly while it is good and has not expired. -/
theorem authenticate_iff_good (env : Env) (clock : Time) (rs : List Request) (t : Text) (u : Uuid) (now : Time)
    (h : History env clock rs t now) :
    (∃ identity, authenticate env (run env ⟨[], []⟩ rs).2 (some t) now = .ok identity ∧ identity.user.id = u) ↔
      ∃ issuedAt, Good (run env ⟨[], []⟩ rs).1 t (u, issuedAt) ∧ now < issuedAt + hours env.lifetimeHours := by
  have hinv := SessionInv.init.run h.distinct h.proper h.fresh h.ordered
  rw [List.nil_append] at hinv
  constructor
  · rintro ⟨identity, hauth, rfl⟩
    obtain ⟨ht, -, hfound⟩ := authenticate_ok hauth
    obtain rfl := Option.some.inj ht
    obtain ⟨hs, hhash, hlive, hid⟩ := findSession_some hfound
    obtain ⟨t, v, hgood, he⟩ := hinv.sound _ hs
    rw [he] at hhash hlive hid
    obtain rfl : t = identity.token :=
      h.distinct t identity.token (hinv.issued t v hgood).1 List.mem_cons_self hhash
    refine ⟨v.2, ?_, hlive⟩
    rw [show identity.user.id = v.1 from hid]
    exact hgood
  · rintro ⟨issuedAt, hgood, hlive⟩
    have hs := hinv.complete t (u, issuedAt) hgood hlive
    obtain ⟨⟨user, session⟩, hfound⟩ : ∃ r, (run env ⟨[], []⟩ rs).2.findSession (env.tokenHash t) now = some r :=
      findSession_isSome hs rfl hlive (hinv.users _ hs)
    have hvalid := (hinv.issued t _ hgood).2.1
    refine ⟨⟨user, session, t⟩, ?_, ?_⟩
    · simp only [authenticate]
      rw [if_pos hvalid, hfound]
    · obtain ⟨hs', hhash, hlive', hid⟩ := findSession_some hfound
      obtain ⟨t', v, hgood', rfl⟩ := hinv.sound _ hs'
      obtain rfl : t' = t := h.distinct t' t (hinv.issued t' v hgood').1 List.mem_cons_self hhash
      rw [hinv.single t' _ _ hgood' hgood] at hid
      exact hid

/-! A registration, and a login that presents the token of the registration. -/

def plainEnv : Env := ⟨id, id, fun stored password => stored = password, fun _ => false, [], 24⟩

def attempt (previous : Option Text) (raw : Char) (now : Time) : Auth.Attempt :=
  ⟨"a".toList, "p".toList, previous, "p".toList, List.replicate 43 raw, now, now⟩

def rotation : List Request :=
  [.register none (attempt none 'x' 0) "n".toList 1, .login none (attempt (some (List.replicate 43 'x')) 'y' 5)]

theorem validToken_replicate {c : Char} (hc : 'a' ≤ c ∧ c ≤ 'z') : ValidToken (List.replicate 43 c) :=
  ⟨List.length_replicate, fun _ hd => List.eq_of_mem_replicate hd ▸ .inr (.inl hc)⟩

theorem rotation_history : History plainEnv 0 rotation (List.replicate 43 'y') 9 where
  ordered := ⟨by decide, by decide, by decide, by decide, show (5 : Time) ≤ 9 by decide⟩
  fresh := by
    show [List.replicate 43 'x', List.replicate 43 'y'].Nodup
    simp
  valid := by
    show ∀ raw ∈ [List.replicate 43 'x', List.replicate 43 'y'], ValidToken raw
    exact List.forall_mem_cons.2 ⟨validToken_replicate (by decide),
      List.forall_mem_singleton.2 (validToken_replicate (by decide))⟩
  distinct := fun _ _ _ _ h => h

theorem authenticate_iff_good_rotation :
    (∃ identity, authenticate plainEnv (run plainEnv ⟨[], []⟩ rotation).2 (some (List.replicate 43 'y')) 9 =
    .ok identity ∧
        identity.user.id = 1) ↔
      ∃ issuedAt, Good (run plainEnv ⟨[], []⟩ rotation).1 (List.replicate 43 'y') (1, issuedAt) ∧
        (9 : Time) < issuedAt + hours 24 :=
  authenticate_iff_good plainEnv 0 rotation (List.replicate 43 'y') 1 9 rotation_history

end Auth
end RepoPilot
