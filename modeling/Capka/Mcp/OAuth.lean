import Capka.Lib.Steps
import Capka.Lib.Table

/-!
# Sign-in with a connector

The rows of the sign-ins in flight and of the users' tokens, and the calls that read and write them, one database statement at a time.
Consuming a state reads its row and then deletes it; saving tokens looks for a row and then updates or inserts one. The master key comes
from the environment, so sealing and unsealing are no statements.
-/

namespace Capka

namespace OAuth

def OAUTH_STATE_TTL_MS : Nat := 10 * 60000

/-- `encrypt` under a random vector, and `decrypt`, with the master key. -/
structure Cipher where
  encrypt : Nat → String → String
  decrypt : String → Option String
  decrypt_encrypt : ∀ vector text, decrypt (encrypt vector text) = some text

/-- A row of `mcp_oauth_states`, and which insertion wrote it. -/
structure StateRow where
  state : String
  userId : String
  serverId : String
  codeVerifier : String
  createdAt : Nat
  serial : Nat
  deriving DecidableEq

/-- What `insertState` was called with, and when. -/
structure Insertion where
  state : String
  userId : String
  serverId : String
  codeVerifier : String
  createdAt : Nat
  deriving DecidableEq

/-- What `consumeState` returns. -/
structure Flight where
  userId : String
  serverId : String
  codeVerifier : String
  deriving DecidableEq

/-- A call of `consumeState`: what it has done so far, and what it answered. -/
inductive Consume
  | called (state : String) (cutoff : Nat)
  | swept (state : String)
  | selected (state : String) (row : StateRow)
  | deleted (state : String) (row : StateRow)
  | refused (state : String)
  | returned (state : String) (row : StateRow) (moment : Nat) (flight : Flight)
  deriving DecidableEq

/-- The sign-ins in flight. -/
structure Flights where
  rows : Table StateRow StateRow.state
  inserted : List Insertion
  consumes : List Consume

/-- A row of `mcp_oauth_tokens`. -/
structure TokenRow where
  id : Nat
  userId : String
  serverId : String
  tokens : String
  account : Option String
  deriving DecidableEq

/-- A call of `saveUserTokens`: what it has found, and how many rows it wrote, or that it threw. -/
inductive Save
  | called (userId serverId tokens : String) (account : Option String)
  | found (id : Nat) (tokens : String) (account : Option String)
  | missing (userId serverId tokens : String) (account : Option String)
  | saved (written : Nat)
  | failed
  deriving DecidableEq

/-- The tokens of the users. -/
structure Credentials where
  rows : Table TokenRow TokenRow.id
  nextId : Nat
  saves : List Save

/-- The store, and the clock. -/
structure Store where
  now : Nat
  flights : Flights
  credentials : Credentials

/-- Nothing happened yet. -/
def Store.init : Store where
  now := 0
  flights := { rows := Table.empty, inserted := [], consumes := [] }
  credentials := { rows := Table.empty, nextId := 0, saves := [] }

/-- Time passes, a call begins, or a call runs its next statement. -/
inductive Action
  | tick (ms : Nat)
  | insertState (state userId serverId codeVerifier : String) (vector : Nat)
  | consumeState (state : String)
  | consume (i : Nat)
  | saveUserTokens (userId serverId tokens : String) (account : Option String) (vector : Nat)
  | save (i : Nat)
  deriving DecidableEq

/-- `insertState`; with a state that is there it throws, and nothing is written. -/
def Flights.insertState (C : Cipher) (now : Nat) (state userId serverId codeVerifier : String) (vector : Nat) (f : Flights) : Flights :=
  let row : StateRow :=
    { state, userId, serverId, codeVerifier := C.encrypt vector codeVerifier, createdAt := now, serial := f.inserted.length }
  match f.rows.insert row with
  | none => f
  | some rows => { f with rows, inserted := f.inserted ++ [{ state, userId, serverId, codeVerifier, createdAt := now }] }

/-- The end of `consumeState`, behind its statements. -/
def Consume.finish (C : Cipher) (now : Nat) (state : String) (row : StateRow) : Consume :=
  if OAUTH_STATE_TTL_MS < now - row.createdAt then .refused state
  else
    match C.decrypt row.codeVerifier with
    | none => .refused state
    | some codeVerifier => .returned state row now { userId := row.userId, serverId := row.serverId, codeVerifier }

/-- The next statement of `consumeState`. -/
def Consume.next (C : Cipher) (now : Nat) (rows : Table StateRow StateRow.state) :
    Consume → Option (Table StateRow StateRow.state × Consume)
  | .called state cutoff => some (rows.filter fun r => decide (¬r.createdAt < cutoff), .swept state)
  | .swept state =>
    match rows.get state with
    | none => some (rows, .refused state)
    | some row => some (rows, .selected state row)
  | .selected state row => some (rows.erase state, .deleted state row)
  | .deleted state row => some (rows, .finish C now state row)
  | .refused _ => none
  | .returned _ _ _ _ => none

/-- A call runs its next statement. -/
def Flights.consume (C : Cipher) (now i : Nat) (f : Flights) : Option Flights :=
  match f.consumes[i]? with
  | none => none
  | some c => (c.next C now f.rows).map fun r => { f with rows := r.1, consumes := f.consumes.set i r.2 }

def tokenRow (rows : Table TokenRow TokenRow.id) (userId serverId : String) : Option TokenRow :=
  rows.rows.find? fun r => r.userId = userId && r.serverId = serverId

/-- `getUserTokens`, up to the parsing. -/
def getUserTokens (C : Cipher) (rows : Table TokenRow TokenRow.id) (userId serverId : String) : Option String :=
  (tokenRow rows userId serverId).bind fun r => C.decrypt r.tokens

/-- The columns an update sets; an account that is not given stays. -/
def TokenRow.withTokens (tokens : String) (account : Option String) (r : TokenRow) : TokenRow :=
  { r with tokens, account := if account.any (· ≠ "") then account else r.account }

/-- The next statement of `saveUserTokens`. -/
def Save.next (rows : Table TokenRow TokenRow.id) (nextId : Nat) : Save → Option (Table TokenRow TokenRow.id × Nat × Save)
  | .called userId serverId tokens account =>
    match tokenRow rows userId serverId with
    | none => some (rows, nextId, .missing userId serverId tokens account)
    | some r => some (rows, nextId, .found r.id tokens account)
  | .found id tokens account =>
    some (rows.modify id (TokenRow.withTokens tokens account) fun _ => rfl, nextId, .saved (rows.count fun r => decide (r.id = id)))
  | .missing userId serverId tokens account =>
    match rows.insert { id := nextId, userId, serverId, tokens, account } with
    | none => some (rows, nextId + 1, .failed)
    | some rows => some (rows, nextId + 1, .saved 1)
  | .saved _ => none
  | .failed => none

/-- A call runs its next statement. -/
def Credentials.save (i : Nat) (c : Credentials) : Option Credentials :=
  match c.saves[i]? with
  | none => none
  | some call => (call.next c.rows c.nextId).map fun r => { c with rows := r.1, nextId := r.2.1, saves := c.saves.set i r.2.2 }

def step (C : Cipher) (s : Store) : Action → Option Store
  | .tick ms => some { s with now := s.now + ms }
  | .insertState state userId serverId codeVerifier vector =>
    some { s with flights := s.flights.insertState C s.now state userId serverId codeVerifier vector }
  | .consumeState state =>
    some { s with flights := { s.flights with consumes := s.flights.consumes ++ [.called state (s.now - OAUTH_STATE_TTL_MS)] } }
  | .consume i => (s.flights.consume C s.now i).map fun flights => { s with flights }
  | .saveUserTokens userId serverId tokens account vector =>
    some { s with credentials := { s.credentials with
      saves := s.credentials.saves ++ [.called userId serverId (C.encrypt vector tokens) account] } }
  | .save i => (s.credentials.save i).map fun credentials => { s with credentials }

/-! ## What is promised -/

/-- The row whose verifier the call returned. -/
def Consume.out : Consume → Option StateRow
  | .returned _ row _ _ => some row
  | .called _ _ | .swept _ | .selected _ _ | .deleted _ _ | .refused _ => none

/-- A verifier leaves the store once, to a call for its own state, within its time. -/
structure Flights.SingleUse (f : Flights) : Prop where
  once : ∀ (i j : Nat) (c d : Consume), f.consumes[i]? = some c → f.consumes[j]? = some d →
    ∀ row ∈ c.out, ∀ row' ∈ d.out, row.serial = row'.serial → i = j
  own : ∀ state row moment flight, Consume.returned state row moment flight ∈ f.consumes →
    ∃ e, f.inserted[row.serial]? = some e ∧ e.state = state ∧
      flight = { userId := e.userId, serverId := e.serverId, codeVerifier := e.codeVerifier } ∧
      moment ≤ e.createdAt + OAUTH_STATE_TTL_MS

/-- A user has one row for a server, no call threw, and each that ended wrote one row. -/
structure Credentials.OneRow (c : Credentials) : Prop where
  one : ∀ userId serverId, c.rows.count (fun r => r.userId = userId && r.serverId = serverId) ≤ 1
  kept : Save.failed ∉ c.saves
  written : ∀ written, Save.saved written ∈ c.saves → written = 1

/-- The state whose row the call reads next. -/
def Consume.reading : Consume → Option String
  | .swept state => some state
  | .called _ _ | .selected _ _ | .deleted _ _ | .refused _ | .returned _ _ _ _ => none

/-- The call has read the row and not deleted it yet. -/
def Consume.holds (row : StateRow) : Consume → Bool
  | .selected _ r => r.serial = row.serial
  | .called _ _ | .swept _ | .deleted _ _ | .refused _ | .returned _ _ _ _ => false

/-- The user and the server whose row the call looks for next. -/
def Save.looking : Save → Option (String × String)
  | .called userId serverId _ _ => some (userId, serverId)
  | .found _ _ _ | .missing _ _ _ _ | .saved _ | .failed => none

/-- The user and the server whose row the call inserts next. -/
def Save.inserting : Save → Option (String × String)
  | .missing userId serverId _ _ => some (userId, serverId)
  | .called _ _ _ _ | .found _ _ _ | .saved _ | .failed => none

/-- No call reads a row that another has read and not deleted yet. -/
def Flights.ReadsAlone (f : Flights) (i : Nat) : Prop :=
  ∀ c ∈ f.consumes[i]?, ∀ state ∈ c.reading, ∀ row ∈ f.rows.get state, ∀ d ∈ f.consumes, d.holds row = false

/-- No call finds a row missing that another has found missing and not inserted yet. -/
def Credentials.LooksAlone (c : Credentials) (i : Nat) : Prop :=
  ∀ call ∈ c.saves[i]?, ∀ key ∈ call.looking, tokenRow c.rows key.1 key.2 = none → ∀ other ∈ c.saves, other.inserting ≠ some key

/-- No step comes between another call's read and its write. -/
def Alone (s : Store) : Action → Prop
  | .consume i => s.flights.ReadsAlone i
  | .save i => s.credentials.LooksAlone i
  | .tick _ | .insertState _ _ _ _ _ | .consumeState _ | .saveUserTokens _ _ _ _ _ => True

instance (s : Store) (a : Action) : Decidable (Alone s a) :=
  match a with
  | .consume i => inferInstanceAs (Decidable (∀ c ∈ s.flights.consumes[i]?, ∀ state ∈ c.reading, ∀ row ∈ s.flights.rows.get state,
      ∀ d ∈ s.flights.consumes, d.holds row = false))
  | .save i => inferInstanceAs (Decidable (∀ call ∈ s.credentials.saves[i]?, ∀ key ∈ call.looking,
      tokenRow s.credentials.rows key.1 key.2 = none → ∀ other ∈ s.credentials.saves, other.inserting ≠ some key))
  | .tick _ | .insertState _ _ _ _ _ | .consumeState _ | .saveUserTokens _ _ _ _ _ => .isTrue trivial

namespace OAuthAux

/-! ### The sign-ins in flight -/

/-- The row a call has read. -/
def row? : Consume → Option StateRow
  | .selected _ row | .deleted _ row | .returned _ row _ _ => some row
  | .called _ _ | .swept _ | .refused _ => none

/-- The row a call has read and deleted. -/
def gone? : Consume → Option StateRow
  | .deleted _ row | .returned _ row _ _ => some row
  | .called _ _ | .swept _ | .selected _ _ | .refused _ => none

/-- The row is what an insertion wrote. -/
def Recorded (C : Cipher) (inserted : List Insertion) (row : StateRow) : Prop :=
  ∃ e, inserted[row.serial]? = some e ∧ e.state = row.state ∧ e.userId = row.userId ∧ e.serverId = row.serverId ∧
    e.createdAt = row.createdAt ∧ C.decrypt row.codeVerifier = some e.codeVerifier

/-- A call has read a recorded row of its own state, and returned it in time. -/
def Proper (C : Cipher) (inserted : List Insertion) : Consume → Prop
  | .called _ _ | .swept _ | .refused _ => True
  | .selected state row | .deleted state row => Recorded C inserted row ∧ row.state = state
  | .returned state row moment flight => Recorded C inserted row ∧ row.state = state ∧ moment ≤ row.createdAt + OAUTH_STATE_TTL_MS ∧
      flight.userId = row.userId ∧ flight.serverId = row.serverId ∧ C.decrypt row.codeVerifier = some flight.codeVerifier

/-- What holds of the sign-ins in flight when rows are read alone. -/
structure Inv (C : Cipher) (f : Flights) : Prop where
  rows : ∀ r ∈ f.rows, Recorded C f.inserted r
  proper : ∀ c ∈ f.consumes, Proper C f.inserted c
  gone : ∀ c ∈ f.consumes, ∀ row ∈ gone? c, ∀ r ∈ f.rows, r.serial ≠ row.serial
  apart : ∀ (i j : Nat) (c d : Consume), f.consumes[i]? = some c → f.consumes[j]? = some d → ∀ row ∈ row? c, ∀ row' ∈ row? d,
    row.serial = row'.serial → i = j

variable {C : Cipher} {f g : Flights} {now i : Nat}

variable {α : Type*} {i : Nat} {l : List α} {x y : α}

theorem getElem?_snoc (h : l[i]? = some x) : (l ++ [y])[i]? = some x := by
  obtain ⟨hlt, heq⟩ := List.getElem?_eq_some_iff.1 h
  rw [List.getElem?_append_left hlt, List.getElem?_eq_getElem hlt, heq]

theorem getElem?_of_snoc (h : (l ++ [y])[i]? = some x) : l[i]? = some x ∨ x = y := by
  rw [List.getElem?_append] at h
  split at h
  · exact .inl h
  · exact .inr (List.mem_singleton.1 (List.mem_of_getElem? h))

theorem getElem?_of_set {j : Nat} (h : (l.set i y)[j]? = some x) :
    (j = i ∧ x = y) ∨ (j ≠ i ∧ l[j]? = some x) := by
  rw [List.getElem?_set] at h
  split at h
  · rename_i heq
    split at h
    · exact .inl ⟨heq.symm, (Option.some.inj h).symm⟩
    · cases h
  · rename_i hne
    exact .inr ⟨fun heq => hne heq.symm, h⟩

variable {inserted : List Insertion} {row : StateRow}

theorem recorded_snoc (h : Recorded C inserted row) (e : Insertion) :
    Recorded C (inserted ++ [e]) row := by
  obtain ⟨x, hx, hrest⟩ := h
  exact ⟨x, getElem?_snoc hx, hrest⟩

theorem serial_lt (h : Recorded C inserted row) : row.serial < inserted.length := by
  obtain ⟨x, hx, -⟩ := h
  exact (List.getElem?_eq_some_iff.1 hx).1

theorem state_eq_of_serial {row' : StateRow} (h : Recorded C inserted row)
    (h' : Recorded C inserted row') (hs : row.serial = row'.serial) : row.state = row'.state := by
  obtain ⟨x, hx, hstate, -⟩ := h
  obtain ⟨y, hy, hstate', -⟩ := h'
  rw [hs, hy] at hx
  obtain rfl := Option.some.inj hx
  exact hstate.symm.trans hstate'

variable {c : Consume}

theorem proper_snoc (h : Proper C inserted c) (e : Insertion) :
    Proper C (inserted ++ [e]) c := by
  cases c with
  | called state cutoff | swept state | refused state => exact trivial
  | selected state row | deleted state row | returned state row moment flight => exact ⟨recorded_snoc h.1 e, h.2⟩

theorem row?_of_gone? (h : row ∈ gone? c) : row ∈ row? c := by
  cases c <;> first | exact h | cases h

theorem recorded_of_proper (h : Proper C inserted c) (hr : row ∈ row? c) :
    Recorded C inserted row := by
  cases c with
  | called state cutoff | swept state | refused state => cases hr
  | selected state x | deleted state x | returned state x moment flight =>
    cases hr
    exact h.1

theorem holds_or_gone (h : row ∈ row? c) : (∀ r, c.holds r = decide (row.serial = r.serial)) ∨ row ∈ gone? c := by
  cases c with
  | called state cutoff => cases h
  | swept state => cases h
  | refused state => cases h
  | selected state x =>
    cases h
    exact .inl fun r => rfl
  | deleted state x => exact .inr h
  | returned state x moment flight => exact .inr h

theorem inv_set {c' : Consume} {rows : Table StateRow StateRow.state} (hI : Inv C f) (hc : f.consumes[i]? = some c)
    (hrows : ∀ r ∈ rows, r ∈ f.rows) (hproper : Proper C f.inserted c') (hgone : ∀ row ∈ gone? c', ∀ r ∈ rows, r.serial ≠ row.serial)
    (hapart : ∀ row ∈ row? c', ∀ (j : Nat) (d : Consume), j ≠ i → f.consumes[j]? = some d → ∀ row' ∈ row? d, row.serial ≠ row'.serial) :
    Inv C { f with rows, consumes := f.consumes.set i c' } where
  rows := fun r hr => hI.rows r (hrows r hr)
  proper := by
    intro d hd
    rcases List.mem_or_eq_of_mem_set hd with hd | rfl
    · exact hI.proper d hd
    · exact hproper
  gone := by
    intro d hd row hrow r hr
    rcases List.mem_or_eq_of_mem_set hd with hd | rfl
    · exact hI.gone d hd row hrow r (hrows r hr)
    · exact hgone row hrow r hr
  apart := by
    intro j k d e hd he row hrow row' hrow' hs
    rcases getElem?_of_set hd with ⟨rfl, rfl⟩ | ⟨hj, hold⟩ <;> rcases getElem?_of_set he with ⟨rfl, rfl⟩ | ⟨hk, hold'⟩
    · rfl
    · exact absurd hs (hapart row hrow k e hk hold' row' hrow')
    · exact absurd hs.symm (hapart row' hrow' j d hj hold row hrow)
    · exact hI.apart j k d e hold hold' row hrow row' hrow' hs

variable {state : String}

theorem inv_select (hI : Inv C f) (hc : f.consumes[i]? = some (.swept state))
    (hrow : f.rows.get state = some row) (halone : ∀ d ∈ f.consumes, d.holds row = false) :
    Inv C { f with consumes := f.consumes.set i (.selected state row) } := by
  obtain ⟨hmem, hstate⟩ := Table.get_eq_some_iff.1 hrow
  refine inv_set hI hc (fun r hr => hr) ⟨hI.rows row hmem, hstate⟩ (fun x hx => nomatch hx) ?_
  rintro x hx j d - hd row' hrow' hs
  cases hx
  have hdm : d ∈ f.consumes := List.mem_of_getElem? hd
  rcases holds_or_gone hrow' with hholds | hgone
  · have hfree := halone d hdm
    rw [hholds row, decide_eq_false_iff_not] at hfree
    exact hfree hs.symm
  · exact hI.gone d hdm row' hgone row hmem hs

theorem apart_of_row? {c' : Consume} (hI : Inv C f) (hc : f.consumes[i]? = some c) (hrow : ∀ row ∈ row? c', row ∈ row? c) :
    ∀ row ∈ row? c', ∀ (j : Nat) (d : Consume), j ≠ i → f.consumes[j]? = some d → ∀ row' ∈ row? d, row.serial ≠ row'.serial :=
  fun row hr j d hj hd row' hr' hs => hj (hI.apart i j c d hc hd row (hrow row hr) row' hr' hs).symm

theorem inv_delete (hI : Inv C f) (hc : f.consumes[i]? = some (.selected state row)) :
    Inv C { f with rows := f.rows.erase state, consumes := f.consumes.set i (.deleted state row) } := by
  have hproper := hI.proper _ (List.mem_of_getElem? hc)
  refine inv_set hI hc (fun r hr => (Table.mem_erase.1 hr).1) hproper ?_ (apart_of_row? hI hc fun x hx => hx)
  intro x hx r hr hs
  cases hx
  obtain ⟨hr, hne⟩ := Table.mem_erase.1 hr
  exact hne ((state_eq_of_serial (hI.rows r hr) hproper.1 hs).trans hproper.2)

theorem inv_finish (hI : Inv C f) (hc : f.consumes[i]? = some (.deleted state row)) :
    Inv C { f with consumes := f.consumes.set i (.finish C now state row) } := by
  have hmem := List.mem_of_getElem? hc
  have hproper := hI.proper _ hmem
  have hrefused : Inv C { f with consumes := f.consumes.set i (.refused state) } :=
    inv_set hI hc (fun r hr => hr) trivial (fun x hx => nomatch hx) (fun x hx => nomatch hx)
  unfold Consume.finish
  split
  · exact hrefused
  · rename_i htime
    split
    · exact hrefused
    · rename_i codeVerifier hdecrypt
      refine inv_set hI hc (fun r hr => hr) ⟨hproper.1, hproper.2, by omega, rfl, rfl, hdecrypt⟩ ?_
        (apart_of_row? hI hc fun x hx => hx)
      exact fun x hx r hr => hI.gone _ hmem x hx r hr

theorem inv_consume (hI : Inv C f) (halone : f.ReadsAlone i) (h : f.consume C now i = some g) : Inv C g := by
  simp only [Flights.consume] at h
  split at h
  · cases h
  · rename_i c hc
    obtain ⟨r, hr, rfl⟩ := Option.map_eq_some_iff.1 h
    cases c with
    | called state cutoff =>
      cases hr
      exact inv_set hI hc (fun r hr => (Table.mem_filter.1 hr).1) trivial (fun x hx => nomatch hx) (fun x hx => nomatch hx)
    | swept state =>
      simp only [Consume.next] at hr
      split at hr
      · cases hr
        exact inv_set hI hc (fun r hr => hr) trivial (fun x hx => nomatch hx) (fun x hx => nomatch hx)
      · rename_i row hrow
        cases hr
        exact inv_select hI hc hrow (halone _ hc state rfl row hrow)
    | selected state row =>
      cases hr
      exact inv_delete hI hc
    | deleted state row =>
      cases hr
      exact inv_finish hI hc
    | refused state => cases hr
    | returned state row moment flight => cases hr

theorem inv_insertState (state userId serverId codeVerifier : String) (vector : Nat) (hI : Inv C f) :
    Inv C (f.insertState C now state userId serverId codeVerifier vector) := by
  simp only [Flights.insertState]
  split
  · exact hI
  rename_i rows hrows
  constructor
  · intro r hr
    rcases (Table.mem_of_insert hrows).1 hr with hr | rfl
    · exact recorded_snoc (hI.rows r hr) _
    · exact ⟨_, List.getElem?_concat_length, rfl, rfl, rfl, rfl, C.decrypt_encrypt vector codeVerifier⟩
  · exact fun c hc => proper_snoc (hI.proper c hc) _
  · intro c hc row hrow r hr
    rcases (Table.mem_of_insert hrows).1 hr with hr | rfl
    · exact hI.gone c hc row hrow r hr
    · exact Nat.ne_of_gt (serial_lt (recorded_of_proper (hI.proper c hc) (row?_of_gone? hrow)))
  · exact hI.apart

theorem inv_consumeState (hI : Inv C f) (state : String) (cutoff : Nat) :
    Inv C { f with consumes := f.consumes ++ [.called state cutoff] } where
  rows := hI.rows
  proper := by
    intro c hc
    rcases List.mem_append.1 hc with hc | hc
    · exact hI.proper c hc
    · obtain rfl := List.mem_singleton.1 hc
      exact trivial
  gone := by
    intro c hc row hrow
    rcases List.mem_append.1 hc with hc | hc
    · exact hI.gone c hc row hrow
    · obtain rfl := List.mem_singleton.1 hc
      cases hrow
  apart := by
    intro i j c d hc hd row hrow row' hrow' hs
    rcases getElem?_of_snoc hc with hc | rfl
    · rcases getElem?_of_snoc hd with hd | rfl
      · exact hI.apart i j c d hc hd row hrow row' hrow' hs
      · cases hrow'
    · cases hrow

theorem singleUse_of_inv (hI : Inv C f) : f.SingleUse where
  once := by
    intro i j c d hc hd row hrow row' hrow' hs
    refine hI.apart i j c d hc hd row ?_ row' ?_ hs
    · cases c <;> first | exact hrow | cases hrow
    · cases d <;> first | exact hrow' | cases hrow'
  own := by
    intro state row moment flight hmem
    obtain ⟨⟨e, he, hstate, huser, hserver, hat, hverifier⟩, hown, htime, hfu, hfs, hfv⟩ := hI.proper _ hmem
    refine ⟨e, he, hstate.trans hown, ?_, hat ▸ htime⟩
    rw [hverifier] at hfv
    obtain ⟨fu, fs, fv⟩ := flight
    simp only at hfu hfs hfv
    rw [Flight.mk.injEq]
    exact ⟨hfu.trans huser.symm, hfs.trans hserver.symm, (Option.some.inj hfv).symm⟩

/-! ### The tokens -/

/-- What holds of the tokens when rows are looked for alone. -/
structure CredentialsInv (c : Credentials) : Prop where
  one : ∀ r ∈ c.rows, ∀ r' ∈ c.rows, r.userId = r'.userId → r.serverId = r'.serverId → r = r'
  fresh : ∀ r ∈ c.rows, r.id < c.nextId
  apart : ∀ (i j : Nat) (x y : Save) (key : String × String), c.saves[i]? = some x → c.saves[j]? = some y →
    x.inserting = some key → y.inserting = some key → i = j
  absent : ∀ x ∈ c.saves, ∀ key ∈ x.inserting, ∀ r ∈ c.rows, ¬(r.userId = key.1 ∧ r.serverId = key.2)
  found : ∀ id tokens account, Save.found id tokens account ∈ c.saves → ∃ r ∈ c.rows, r.id = id
  kept : Save.failed ∉ c.saves
  written : ∀ written, Save.saved written ∈ c.saves → written = 1

variable {c d : Credentials}

variable {rows : Table TokenRow TokenRow.id} {userId serverId : String}

theorem tokenRow_eq_none_iff :
    tokenRow rows userId serverId = none ↔ ∀ r ∈ rows, ¬(r.userId = userId ∧ r.serverId = serverId) := by
  simp [tokenRow, Table.mem_rows]

theorem mem_of_tokenRow {r : TokenRow}
    (h : tokenRow rows userId serverId = some r) : r ∈ rows := List.mem_of_find?_eq_some h

variable {tokens : String} {account : Option String}

theorem exists_of_mem_modify {rows : Table TokenRow TokenRow.id} {id : Nat} {r : TokenRow}
    (h : r ∈ rows.modify id (TokenRow.withTokens tokens account) fun _ => rfl) :
    ∃ r₀ ∈ rows, r₀.id = r.id ∧ r₀.userId = r.userId ∧ r₀.serverId = r.serverId := by
  rcases Table.mem_modify.1 h with ⟨r₀, hr₀, -, rfl⟩ | ⟨hr, -⟩
  · exact ⟨r₀, hr₀, rfl, rfl, rfl⟩
  · exact ⟨r, hr, rfl, rfl, rfl⟩

theorem credentialsInv_set {x e : Save} (hI : CredentialsInv c) (hx : c.saves[i]? = some x)
    (hinserting : ∀ key ∈ e.inserting, (∀ y ∈ c.saves, y.inserting ≠ some key) ∧ ∀ r ∈ c.rows, ¬(r.userId = key.1 ∧ r.serverId = key.2))
    (hfound : ∀ id tokens account, e = .found id tokens account → ∃ r ∈ c.rows, r.id = id)
    (hkept : e ≠ .failed) (hwritten : ∀ written, e = .saved written → written = 1) : CredentialsInv { c with saves := c.saves.set i e } where
  one := hI.one
  fresh := hI.fresh
  apart := by
    intro j k y z key hy hz hyk hzk
    rcases getElem?_of_set hy with ⟨rfl, rfl⟩ | ⟨hj, hold⟩ <;> rcases getElem?_of_set hz with ⟨rfl, rfl⟩ | ⟨hk, hold'⟩
    · rfl
    · exact absurd hzk ((hinserting key hyk).1 z (List.mem_of_getElem? hold'))
    · exact absurd hyk ((hinserting key hzk).1 y (List.mem_of_getElem? hold))
    · exact hI.apart j k y z key hold hold' hyk hzk
  absent := by
    intro y hy key hkey
    rcases List.mem_or_eq_of_mem_set hy with hy | rfl
    · exact hI.absent y hy key hkey
    · exact (hinserting key hkey).2
  found := by
    intro id tokens account hy
    rcases List.mem_or_eq_of_mem_set hy with hy | heq
    · exact hI.found id tokens account hy
    · exact hfound id tokens account heq.symm
  kept := by
    intro hy
    rcases List.mem_or_eq_of_mem_set hy with hy | heq
    · exact hI.kept hy
    · exact hkept heq.symm
  written := by
    intro written hy
    rcases List.mem_or_eq_of_mem_set hy with hy | heq
    · exact hI.written written hy
    · exact hwritten written heq.symm

theorem credentialsInv_rows (hI : CredentialsInv c)
    (hback : ∀ r ∈ rows, ∃ r₀ ∈ c.rows, r₀.id = r.id ∧ r₀.userId = r.userId ∧ r₀.serverId = r.serverId)
    (hon : ∀ r ∈ c.rows, ∃ r' ∈ rows, r'.id = r.id) : CredentialsInv { c with rows } where
  one := by
    intro r hr r' hr' huser hserver
    obtain ⟨r₀, hr₀, hid, hu, hs⟩ := hback r hr
    obtain ⟨r₁, hr₁, hid', hu', hs'⟩ := hback r' hr'
    obtain rfl : r₀ = r₁ := hI.one r₀ hr₀ r₁ hr₁ (hu.trans (huser.trans hu'.symm)) (hs.trans (hserver.trans hs'.symm))
    exact Table.eq_of_key hr hr' (hid.symm.trans hid')
  fresh := by
    intro r hr
    obtain ⟨r₀, hr₀, hid, -⟩ := hback r hr
    exact hid ▸ hI.fresh r₀ hr₀
  apart := hI.apart
  absent := by
    intro x hx key hkey r hr hcols
    obtain ⟨r₀, hr₀, -, hu, hs⟩ := hback r hr
    exact hI.absent x hx key hkey r₀ hr₀ ⟨hu.trans hcols.1, hs.trans hcols.2⟩
  found := by
    intro id tokens account hx
    obtain ⟨r, hr, hid⟩ := hI.found id tokens account hx
    obtain ⟨r', hr', hid'⟩ := hon r hr
    exact ⟨r', hr', hid'.trans hid⟩
  kept := hI.kept
  written := hI.written

theorem credentialsInv_update {id : Nat} (hI : CredentialsInv c)
    (hx : c.saves[i]? = some (.found id tokens account)) :
    CredentialsInv
      { c with
        rows := c.rows.modify id (TokenRow.withTokens tokens account) fun _ => rfl
        saves := c.saves.set i (.saved (c.rows.count fun r => decide (r.id = id))) } := by
  obtain ⟨r, hr, hid⟩ := hI.found id tokens account (List.mem_of_getElem? hx)
  have hrows : CredentialsInv { c with rows := c.rows.modify id (TokenRow.withTokens tokens account) fun _ => rfl } := by
    refine credentialsInv_rows hI (fun x hx => exists_of_mem_modify hx) fun x hx => ?_
    by_cases hk : x.id = id
    · exact ⟨x.withTokens tokens account, Table.mem_modify.2 (.inl ⟨x, hx, hk, rfl⟩), rfl⟩
    · exact ⟨x, Table.mem_modify.2 (.inr ⟨hx, hk⟩), rfl⟩
  refine credentialsInv_set hrows hx (fun key hkey => nomatch hkey) (fun _ _ _ heq => nomatch heq) (fun heq => nomatch heq) ?_
  intro written heq
  obtain rfl := Save.saved.inj heq
  have hle : c.rows.count (fun r => decide (r.id = id)) ≤ 1 := Table.count_key_le c.rows id
  have hpos : 0 < c.rows.count (fun r => decide (r.id = id)) := List.countP_pos_iff.2 ⟨r, hr, decide_eq_true hid⟩
  omega

theorem credentialsInv_insert
    (hI : CredentialsInv c) (hx : c.saves[i]? = some (.missing userId serverId tokens account))
    (hrows : c.rows.insert { id := c.nextId, userId, serverId, tokens, account } = some rows) :
    CredentialsInv { rows, nextId := c.nextId + 1, saves := c.saves.set i (.saved 1) } := by
  have habsent := hI.absent _ (List.mem_of_getElem? hx) (userId, serverId) rfl
  have hset := credentialsInv_set (e := .saved 1) hI hx (fun key hkey => nomatch hkey) (fun _ _ _ heq => nomatch heq)
    (fun heq => nomatch heq) (fun written heq => (Save.saved.inj heq).symm)
  constructor
  · intro r hr r' hr' huser hserver
    rcases (Table.mem_of_insert hrows).1 hr with hr | rfl <;> rcases (Table.mem_of_insert hrows).1 hr' with hr' | rfl
    · exact hI.one r hr r' hr' huser hserver
    · exact absurd ⟨huser, hserver⟩ (habsent r hr)
    · exact absurd ⟨huser.symm, hserver.symm⟩ (habsent r' hr')
    · rfl
  · intro r hr
    rcases (Table.mem_of_insert hrows).1 hr with hr | rfl
    · exact Nat.lt_succ_of_lt (hI.fresh r hr)
    · exact Nat.lt_succ_self _
  · exact hset.apart
  · intro y hy key hkey r hr hcols
    rcases (Table.mem_of_insert hrows).1 hr with hr | rfl
    · exact hset.absent y hy key hkey r hr hcols
    · -- another call that found the same row missing would be this one
      obtain ⟨j, hj⟩ := List.mem_iff_getElem?.1 hy
      rcases getElem?_of_set hj with ⟨-, rfl⟩ | ⟨hne, hold⟩
      · cases hkey
      · have hkeys : key = (userId, serverId) := Prod.ext hcols.1.symm hcols.2.symm
        exact hne (hI.apart j i y _ key hold hx hkey (hkeys ▸ rfl))
  · intro id toks acc hy
    obtain ⟨r, hr, hid⟩ := hset.found id toks acc hy
    exact ⟨r, (Table.mem_of_insert hrows).2 (.inl hr), hid⟩
  · exact hset.kept
  · exact hset.written

theorem credentialsInv_save (hI : CredentialsInv c) (halone : c.LooksAlone i) (h : c.save i = some d) : CredentialsInv d := by
  simp only [Credentials.save] at h
  split at h
  · cases h
  rename_i x hx
  obtain ⟨r, hr, rfl⟩ := Option.map_eq_some_iff.1 h
  cases x with
  | called userId serverId tokens account =>
    simp only [Save.next] at hr
    split at hr
    · rename_i hnone
      cases hr
      refine credentialsInv_set hI hx ?_ (fun _ _ _ heq => nomatch heq) (fun heq => nomatch heq) (fun _ heq => nomatch heq)
      intro key hkey
      cases hkey
      exact ⟨halone _ hx _ rfl hnone, tokenRow_eq_none_iff.1 hnone⟩
    · rename_i r hr'
      cases hr
      refine credentialsInv_set hI hx (fun _ heq => nomatch heq) ?_ (fun heq => nomatch heq) (fun _ heq => nomatch heq)
      intro id toks acc heq
      cases heq
      exact ⟨r, mem_of_tokenRow hr', rfl⟩
  | found id tokens account =>
    cases hr
    exact credentialsInv_update hI hx
  | missing userId serverId tokens account =>
    simp only [Save.next] at hr
    split at hr
    · rename_i hnone
      obtain ⟨rows, hrows⟩ := Table.exists_insert (T := c.rows) (r := { id := c.nextId, userId, serverId, tokens, account })
        fun r' hr' => Nat.ne_of_lt (hI.fresh r' hr')
      rw [hrows] at hnone
      cases hnone
    · rename_i rows hrows
      cases hr
      exact credentialsInv_insert hI hx hrows
  | saved written => cases hr
  | failed => cases hr

theorem credentialsInv_saveUserTokens (hI : CredentialsInv c) (userId serverId tokens : String) (account : Option String) :
    CredentialsInv { c with saves := c.saves ++ [.called userId serverId tokens account] } := by
  have hmem : ∀ x ∈ c.saves ++ [Save.called userId serverId tokens account], x ∈ c.saves ∨ x = .called userId serverId tokens account :=
    fun x hx => (List.mem_append.1 hx).imp_right List.mem_singleton.1
  constructor
  · exact hI.one
  · exact hI.fresh
  · intro i j x y key hx hy hxk hyk
    rcases getElem?_of_snoc hx with hx | rfl
    · rcases getElem?_of_snoc hy with hy | rfl
      · exact hI.apart i j x y key hx hy hxk hyk
      · cases hyk
    · cases hxk
  · intro x hx key hkey
    rcases hmem x hx with hx | rfl
    · exact hI.absent x hx key hkey
    · cases hkey
  · intro id toks acc hx
    rcases hmem _ hx with hx | heq
    · exact hI.found id toks acc hx
    · cases heq
  · intro hx
    rcases hmem _ hx with hx | heq
    · exact hI.kept hx
    · cases heq
  · intro written hx
    rcases hmem _ hx with hx | heq
    · exact hI.written written hx
    · cases heq

theorem oneRow_of_inv (hI : CredentialsInv c) : c.OneRow where
  one := by
    intro userId serverId
    rcases Nat.eq_zero_or_pos (c.rows.count fun r => r.userId = userId && r.serverId = serverId) with hzero | hpos
    · omega
    obtain ⟨r, hr, hcols⟩ := List.countP_pos_iff.1 hpos
    refine Nat.le_trans (Table.count_mono fun r' hr' hcols' => ?_) (Table.count_key_le c.rows r.id)
    simp only [Bool.and_eq_true, decide_eq_true_eq] at hcols hcols'
    rw [hI.one r' hr' r hr (hcols'.1.trans hcols.1.symm) (hcols'.2.trans hcols.2.symm), decide_eq_true_eq]
  kept := hI.kept
  written := hI.written

/-! ### The store -/

theorem inv_step {C : Cipher} {s t : Store} {a : Action} (hI : Inv C s.flights ∧ CredentialsInv s.credentials) (halone : Alone s a)
    (h : step C s a = some t) : Inv C t.flights ∧ CredentialsInv t.credentials := by
  cases a with
  | tick ms =>
    cases h
    exact hI
  | insertState state userId serverId codeVerifier vector =>
    cases h
    exact ⟨inv_insertState state userId serverId codeVerifier vector hI.1, hI.2⟩
  | consumeState state =>
    cases h
    exact ⟨inv_consumeState hI.1 state _, hI.2⟩
  | consume i =>
    obtain ⟨g, hg, rfl⟩ := Option.map_eq_some_iff.1 h
    exact ⟨inv_consume hI.1 halone hg, hI.2⟩
  | saveUserTokens userId serverId tokens account vector =>
    cases h
    exact ⟨hI.1, credentialsInv_saveUserTokens hI.2 userId serverId _ account⟩
  | save i =>
    obtain ⟨d, hd, rfl⟩ := Option.map_eq_some_iff.1 h
    exact ⟨hI.1, credentialsInv_save hI.2 halone hd⟩

theorem inv_init (C : Cipher) : Inv C Store.init.flights ∧ CredentialsInv Store.init.credentials := by
  constructor
  · exact ⟨fun r hr => absurd hr (Table.not_mem_empty r), fun c hc => absurd hc (List.not_mem_nil),
      fun c hc => absurd hc (List.not_mem_nil), fun i j c d hc => nomatch hc⟩
  · exact ⟨fun r hr => absurd hr (Table.not_mem_empty r), fun r hr => absurd hr (Table.not_mem_empty r),
      fun i j x y key hx => absurd hx nofun, fun x hx => absurd hx (List.not_mem_nil), fun id tokens account hx => absurd hx (List.not_mem_nil),
      List.not_mem_nil, fun written hx => absurd hx (List.not_mem_nil)⟩

end OAuthAux

/-- In every run in which no step comes between another call's read and its write, a verifier is returned once, to a call for its own
state and within its time, and a user has one row of tokens for a server, which no save failed to write. -/
theorem single_use_of_alone {C : Cipher} {s : Store} (h : Steps.Reaches (step C) Alone Store.init s) :
    s.flights.SingleUse ∧ s.credentials.OneRow := by
  have hI := h.invariant (I := fun s => OAuthAux.Inv C s.flights ∧ OAuthAux.CredentialsInv s.credentials)
    (fun _ _ _ hx hok hy => OAuthAux.inv_step hx hok hy) (OAuthAux.inv_init C)
  exact ⟨OAuthAux.singleUse_of_inv hI.1, OAuthAux.oneRow_of_inv hI.2⟩

/-- A cipher that seals nothing. -/
def plain : Cipher where
  encrypt := fun _ text => text
  decrypt := some
  decrypt_encrypt := fun _ _ => rfl

/-- Two callbacks for one state and two saves, one after the other: the second callback is refused, and the second save updates. -/
theorem single_use_of_alone_twice :
    ∃ s, Steps.Reaches (step plain) Alone Store.init s ∧
      (s.flights.consumes.map (fun c => c.out.isSome) = [true, false] ∧ getUserTokens plain s.credentials.rows "ada" "wiki" = some "new") ∧
      s.flights.SingleUse ∧ s.credentials.OneRow := by
  obtain ⟨s, hs, hend⟩ := Steps.exists_of_execOk (step plain) Alone Store.init
    [.insertState "st" "ada" "wiki" "verifier" 0, .tick 5000, .consumeState "st", .consume 0, .consume 0, .consume 0, .consume 0,
      .consumeState "st", .consume 1, .consume 1, .saveUserTokens "ada" "wiki" "old" none 1, .save 0, .save 0,
      .saveUserTokens "ada" "wiki" "new" none 2, .save 1, .save 1]
    (P := fun s => s.flights.consumes.map (fun c => c.out.isSome) = [true, false] ∧
      getUserTokens plain s.credentials.rows "ada" "wiki" = some "new")
    (by decide)
  exact ⟨s, hs, hend, single_use_of_alone hs⟩

/-- Two callbacks that both read the row before either deletes it both return the verifier, and two saves that both found no row both
insert one. -/
theorem single_use_false :
    ∃ s, Steps.Reaches (step plain) Steps.Free Store.init s ∧ ¬s.flights.SingleUse ∧ ¬s.credentials.OneRow := by
  obtain ⟨s, hs, hreturned, hrows⟩ := Steps.exists_of_exec (step plain) Store.init
    [.insertState "st" "ada" "wiki" "verifier" 0, .consumeState "st", .consumeState "st", .consume 0, .consume 1, .consume 0, .consume 1,
      .consume 0, .consume 0, .consume 1, .consume 1, .saveUserTokens "ada" "wiki" "one" none 1, .saveUserTokens "ada" "wiki" "two" none 2,
      .save 0, .save 1, .save 0, .save 1]
    (P := fun s => s.flights.consumes.map (fun c => c.out.map StateRow.serial) = [some 0, some 0] ∧
      s.credentials.rows.count (fun r => r.userId = "ada" && r.serverId = "wiki") = 2)
    (by decide)
  refine ⟨s, hs, fun h => ?_, fun h => absurd (h.one "ada" "wiki") (by rw [hrows]; decide)⟩
  obtain ⟨c, d, hcd⟩ := List.length_eq_two.1 (by simpa using congrArg List.length hreturned)
  simp only [hcd, List.map_cons, List.map_nil, List.cons.injEq, and_true, Option.map_eq_some_iff] at hreturned
  obtain ⟨⟨row, hrow, hserial⟩, row', hrow', hserial'⟩ := hreturned
  have hsame := h.once 0 1 c d (by rw [hcd]; rfl) (by rw [hcd]; rfl) row hrow row' hrow' (hserial.trans hserial'.symm)
  omega

end OAuth

end Capka
