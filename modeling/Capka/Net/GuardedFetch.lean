import Capka.Net.Addresses

/-!
# The guarded fetch

`createGuardedFetch` checks the target of a request and of every redirect, pins each connection to the addresses it checked, and
rewrites method, body and headers from hop to hop. What the resolver and the servers answer is a parameter, at each hop another.
-/

namespace Capka.Net

/-- A parsed URL, by the components the guard reads. A URL spelled out and parsed again is the same URL. -/
structure Url where
  href : String
  protocol : String
  hostname : String
  origin : String
  deriving DecidableEq, Repr

/-- The URL parser of the platform: a URL from its text, and from a reference and the URL it is relative to. -/
structure UrlParser where
  parse : String → Option Url
  resolve : String → Url → Option Url

/-- Why a URL was refused. -/
inductive UnsafeUrlReason
  | blocked
  | unresolved
  | invalid
  deriving DecidableEq, Repr

/-- What a request fails with. -/
inductive FetchError
  | unsafeUrl (reason : UnsafeUrlReason) (message : String)
  | badUrl
  | badHeaders
  | badRequest
  | network
  | tooManyRedirects
  deriving DecidableEq, Repr

def blockedMessage : String := "That address isn't allowed. Check the URL or ask your admin about network restrictions."

/-- The caller's `RequestInit`: method, headers and body. -/
structure RequestInit where
  method : Option String := none
  headers : List (String × String) := []
  body : Option String := none
  deriving DecidableEq, Repr

/-- `new Headers`: names in lower case, the values of a repeated name joined. -/
def headerAppend (h : List (String × String)) (kv : String × String) : List (String × String) :=
  let name := kv.1.toLower
  match h.find? (fun x => x.1 = name) with
  | some _ => h.map fun x => if x.1 = name then (x.1, x.2 ++ ", " ++ kv.2) else x
  | none => h ++ [(name, kv.2)]

def newHeaders (headers : List (String × String)) : List (String × String) := headers.foldl headerAppend []

/-- `Headers.set`: the value replaces those of the name. -/
def headerSet (h : List (String × String)) (kv : String × String) : List (String × String) :=
  h.filter (fun x => x.1 ≠ kv.1.toLower) ++ [(kv.1.toLower, kv.2)]

/-- The options of a guarded fetch. -/
structure FetchOptions where
  blockPrivate : Bool
  headers : List (String × String) := []
  deriving DecidableEq, Repr

structure Response where
  status : Nat
  location : Option String
  deriving DecidableEq, Repr

/-- A request as it leaves: to the URL, over a connection to one of the addresses. -/
structure Sent where
  url : Url
  method : String
  headers : List (String × String)
  body : Option String
  addrs : List String
  deriving DecidableEq, Repr

/-- The world outside: the URL parser, which header fields are well formed, and at each hop what the resolver says of a host and
what comes back for a request. -/
structure Web where
  urls : UrlParser
  validHeader : String × String → Bool
  lookup : Nat → String → Option (List String)
  answer : Nat → Sent → Option Response

/-- `resolveGuarded`: the addresses of a host, all of them allowed. -/
def resolveGuarded (web : Web) (hop : Nat) (hostname : String) (blockPrivate : Bool) : Except FetchError (List String) :=
  match web.lookup hop hostname with
  | none => .error (.unsafeUrl .unresolved ("Could not resolve host: " ++ hostname))
  | some addrs =>
    if addrs.any (fun a => isBlockedAddress a blockPrivate) then .error (.unsafeUrl .blocked blockedMessage) else .ok addrs

/-- An IPv6 literal without the brackets `URL.hostname` puts around it. -/
def bareHostname (u : Url) : String :=
  if u.hostname.toList.head? = some '[' ∧ u.hostname.toList.getLast? = some ']' then
    String.ofList u.hostname.toList.tail.dropLast
  else u.hostname

def assertHttpUrl (u : Url) : Except FetchError Url :=
  if u.protocol ≠ "http:" ∧ u.protocol ≠ "https:" then .error (.unsafeUrl .invalid "URL must use http or https") else .ok u

/-- The platform's `fetch` takes no body with a GET or a HEAD. -/
def fetchRefuses (method : String) (body : Option String) : Bool :=
  body.isSome && (method.toUpper == "GET" || method.toUpper == "HEAD")

/-- `guardedFetchOnce`: check the target, then one request over a connection pinned to the addresses checked. What left is recorded
beside the outcome. -/
def guardedFetchOnce (web : Web) (hop : Nat) (u : Url) (blockPrivate : Bool) (init : RequestInit) (headers : List (String × String)) :
    List Sent × Except FetchError Response :=
  match assertHttpUrl u with
  | .error e => ([], .error e)
  | .ok u =>
    match resolveGuarded web hop (bareHostname u) blockPrivate with
    | .error e => ([], .error e)
    | .ok addrs =>
      if fetchRefuses (init.method.getD "GET") init.body then ([], .error .badRequest)
      else
        let sent : Sent := { url := u, method := init.method.getD "GET", headers, body := init.body, addrs }
        match web.answer hop sent with
        | none => ([sent], .error .network)
        | some res => ([sent], .ok res)

def MAX_REDIRECTS : Nat := 5

/-- The only request headers that survive a cross-origin hop. -/
def CROSS_ORIGIN_SAFE : List String := ["accept", "accept-encoding", "accept-language", "content-type", "user-agent"]

/-- The headers of one hop: the fixed ones are set on a trusted hop only, on any other hop what is not on the allowlist goes. -/
def hopHeaders (opts : FetchOptions) (init : RequestInit) (trusted : Bool) : List (String × String) :=
  let h := newHeaders init.headers
  if trusted then opts.headers.foldl headerSet h else h.filter fun kv => CROSS_ORIGIN_SAFE.contains kv.1

/-- The status codes of a redirect that keeps method and body. -/
def preserves (status : Nat) : Bool := status == 307 || status == 308

/-- The init of the next hop: a redirect that does not keep the method of the request turns it into a GET without a body. -/
def nextInit (init : RequestInit) (status : Nat) : RequestInit :=
  let method := (init.method.getD "GET").toUpper
  if preserves status || method == "GET" || method == "HEAD" then init
  else { init with method := some "GET", body := none }

/-- `doFetch` with `left` redirects still to follow; the hop is the number followed so far. `origin` is that of the first URL,
`stripped` that an earlier hop left it. -/
def doFetch (web : Web) (opts : FetchOptions) (origin : String) :
    Nat → Nat → Url → RequestInit → Bool → List Sent × Except FetchError Response
  | left, hop, u, init, stripped =>
    let trusted := u.origin == origin && !stripped
    if !init.headers.all web.validHeader || (trusted && !opts.headers.all web.validHeader) then ([], .error .badHeaders)
    else
      match guardedFetchOnce web hop u opts.blockPrivate init (hopHeaders opts init trusted) with
      | (log, .error e) => (log, .error e)
      | (log, .ok res) =>
        if res.status < 300 ∨ 400 ≤ res.status then (log, .ok res)
        else
          match res.location with
          | none => (log, .ok res)
          | some loc =>
            -- an empty `location` is no location
            if loc = "" then (log, .ok res)
            else
              match left with
              | 0 => (log, .error .tooManyRedirects)
              | left + 1 =>
                match web.urls.resolve loc u with
                | none => (log, .error .badUrl)
                | some next =>
                  if u.protocol = "https:" ∧ next.protocol = "http:" then (log, .error (.unsafeUrl .blocked blockedMessage))
                  else if preserves res.status ∧ init.body ≠ none ∧ next.origin ≠ origin then
                    (log, .error (.unsafeUrl .blocked blockedMessage))
                  else
                    let rest := doFetch web opts origin left (hop + 1) next (nextInit init res.status)
                      (stripped || next.origin != origin)
                    (log ++ rest.1, rest.2)

/-- The function `createGuardedFetch` returns. -/
def guardedFetch (web : Web) (opts : FetchOptions) (input : String) (init : RequestInit) : List Sent × Except FetchError Response :=
  match web.urls.parse input with
  | none => ([], .error .badUrl)
  | some u => doFetch web opts u.origin MAX_REDIRECTS 0 u init false

/-! ## One hop -/

namespace GuardedAux

variable {web : Web} {opts : FetchOptions} {origin : String}

/-- A request that left: where to, over which addresses, with what of the caller's init. -/
structure Hop (web : Web) (opts : FetchOptions) (origin : String) (hop : Nat) (u : Url) (init : RequestInit) (stripped : Bool)
    (s : Sent) : Prop where
  url : s.url = u
  protocol : u.protocol = "http:" ∨ u.protocol = "https:"
  resolved : web.lookup hop (bareHostname u) = some s.addrs
  allowed : ∀ a ∈ s.addrs, isBlockedAddress a opts.blockPrivate = false
  headers : s.headers = hopHeaders opts init (u.origin == origin && !stripped)
  body : s.body = init.body
  accepted : fetchRefuses (init.method.getD "GET") init.body = false

theorem once_cases (web : Web) (opts : FetchOptions) (origin : String) (hop : Nat) (u : Url) (init : RequestInit) (stripped : Bool) :
    (∃ e, guardedFetchOnce web hop u opts.blockPrivate init (hopHeaders opts init (u.origin == origin && !stripped)) = ([], .error e)) ∨
      ∃ s out, guardedFetchOnce web hop u opts.blockPrivate init (hopHeaders opts init (u.origin == origin && !stripped)) = ([s], out) ∧
        Hop web opts origin hop u init stripped s := by
  by_cases hproto : u.protocol ≠ "http:" ∧ u.protocol ≠ "https:"
  · simp [guardedFetchOnce, assertHttpUrl, hproto]
  · have hp : u.protocol = "http:" ∨ u.protocol = "https:" := by
      by_contra hn
      exact hproto (not_or.mp hn)
    have hassert : assertHttpUrl u = .ok u := by rw [assertHttpUrl, if_neg hproto]
    simp only [guardedFetchOnce, hassert]
    cases hfound : web.lookup hop (bareHostname u) with
    | none => simp [resolveGuarded, hfound]
    | some addrs =>
      by_cases hblocked : addrs.any (fun a => isBlockedAddress a opts.blockPrivate) = true
      · simp [resolveGuarded, hfound, hblocked]
      · have hguard : resolveGuarded web hop (bareHostname u) opts.blockPrivate = .ok addrs := by
          simp [resolveGuarded, hfound, hblocked]
        rw [hguard]
        have hallowed : ∀ a ∈ addrs, isBlockedAddress a opts.blockPrivate = false := by
          intro a ha
          by_contra hb
          exact hblocked (List.any_eq_true.mpr ⟨a, ha, by simpa using hb⟩)
        by_cases hrefuses : fetchRefuses (init.method.getD "GET") init.body = true
        · simp [hrefuses]
        · have hr : fetchRefuses (init.method.getD "GET") init.body = false := by simpa using hrefuses
          refine .inr ?_
          simp only [hr, Bool.false_eq_true, if_false]
          split
          · exact ⟨_, _, rfl, rfl, hp, hfound, hallowed, rfl, rfl, hr⟩
          · exact ⟨_, _, rfl, rfl, hp, hfound, hallowed, rfl, rfl, hr⟩

/-- What a chain sends: nothing, one request, or one request and then what the chain from the redirect's target sends. A redirect
that is followed does not leave https, and does not take a body it keeps to another origin. -/
theorem doFetch_cases {left hop : Nat} {u : Url} {init : RequestInit} {stripped : Bool} {r : List Sent × Except FetchError Response}
    (h : doFetch web opts origin left hop u init stripped = r) :
    r.1 = [] ∨
      ∃ s, Hop web opts origin hop u init stripped s ∧
        (r.1 = [s] ∨
          ∃ left' next status, left = left' + 1 ∧ ¬(u.protocol = "https:" ∧ next.protocol = "http:") ∧
            ¬(preserves status = true ∧ init.body ≠ none ∧ next.origin ≠ origin) ∧
            r.1 = s :: (doFetch web opts origin left' (hop + 1) next (nextInit init status) (stripped || next.origin != origin)).1) := by
  unfold doFetch at h
  simp only at h
  split at h
  · exact .inl (h ▸ rfl)
  rcases once_cases web opts origin hop u init stripped with ⟨e, he⟩ | ⟨s, out, hs, hhop⟩
  · rw [he] at h
    exact .inl (h ▸ rfl)
  · rw [hs] at h
    refine .inr ⟨s, hhop, ?_⟩
    cases out with
    | error e => exact .inl (h ▸ rfl)
    | ok res =>
      simp only at h
      split at h
      · exact .inl (h ▸ rfl)
      · split at h
        · exact .inl (h ▸ rfl)
        · split at h
          · exact .inl (h ▸ rfl)
          · cases left with
            | zero => exact .inl (h ▸ rfl)
            | succ left' =>
              simp only at h
              split at h
              · exact .inl (h ▸ rfl)
              · rename_i next _
                split at h
                · exact .inl (h ▸ rfl)
                · rename_i hdown
                  split at h
                  · exact .inl (h ▸ rfl)
                  · rename_i hbody
                    exact .inr ⟨left', next, res.status, rfl, hdown, hbody, h ▸ rfl⟩

@[simp] theorem nextInit_headers (init : RequestInit) (status : Nat) : (nextInit init status).headers = init.headers := by
  simp only [nextInit]
  split <;> rfl

theorem nextInit_body (init : RequestInit) (status : Nat) :
    (nextInit init status).body = none ∨ (nextInit init status).body = init.body := by
  simp only [nextInit]
  split
  · exact .inr rfl
  · exact .inl rfl

theorem preserves_of_body {init : RequestInit} {status : Nat} (hok : fetchRefuses (init.method.getD "GET") init.body = false)
    (h : (nextInit init status).body ≠ none) : preserves status = true := by
  by_contra hp
  have hp' : preserves status = false := by simpa using hp
  simp only [nextInit, hp', Bool.false_or] at h
  split at h
  · rename_i hm
    have hsome : init.body.isSome = true := Option.isSome_iff_ne_none.mpr h
    rw [fetchRefuses, hsome, Bool.true_and, hm] at hok
    cases hok
  · exact h rfl

/-- What a chain of redirects sends, with `left` redirects still allowed: nothing, one request, or one request and what the chain
from the redirect's target sends. -/
inductive Chain (web : Web) (opts : FetchOptions) (origin : String) : Nat → Nat → Url → RequestInit → Bool → List Sent → Prop
  | nothing {left hop u init stripped} : Chain web opts origin left hop u init stripped []
  | stop {left hop u init stripped s} (sent : Hop web opts origin hop u init stripped s) :
      Chain web opts origin left hop u init stripped [s]
  | follow {left hop u init stripped s next status log} (sent : Hop web opts origin hop u init stripped s)
      (secure : ¬(u.protocol = "https:" ∧ next.protocol = "http:"))
      (contained : ¬(preserves status = true ∧ init.body ≠ none ∧ next.origin ≠ origin))
      (rest : Chain web opts origin left (hop + 1) next (nextInit init status) (stripped || next.origin != origin) log) :
      Chain web opts origin (left + 1) hop u init stripped (s :: log)

theorem chain_of_doFetch (left hop : Nat) (u : Url) (init : RequestInit) (stripped : Bool) :
    Chain web opts origin left hop u init stripped (doFetch web opts origin left hop u init stripped).1 := by
  induction left generalizing hop u init stripped with
  | zero =>
    rcases @doFetch_cases web opts origin 0 hop u init stripped _ rfl with h | ⟨s, hs, h | ⟨_, _, _, hleft, _⟩⟩
    · rw [h]
      exact .nothing
    · rw [h]
      exact .stop hs
    · cases hleft
  | succ left ih =>
    rcases @doFetch_cases web opts origin (left + 1) hop u init stripped _ rfl with
      h | ⟨s, hs, h | ⟨_, next, status, hleft, hdown, hbody, h⟩⟩
    · rw [h]
      exact .nothing
    · rw [h]
      exact .stop hs
    · cases hleft
      rw [h]
      exact .follow hs hdown hbody (ih _ _ _ _)

variable {left hop : Nat} {u : Url} {init : RequestInit} {stripped : Bool} {log : List Sent}

theorem Chain.few (h : Chain web opts origin left hop u init stripped log) : log.length ≤ left + 1 := by
  induction h with
  | nothing => simp
  | stop _ => simp
  | follow _ _ _ _ ih =>
    rw [List.length_cons]
    omega

theorem Chain.addresses (h : Chain web opts origin left hop u init stripped log) {i : Nat} {s : Sent} (hs : log[i]? = some s) :
    web.lookup (hop + i) (bareHostname s.url) = some s.addrs ∧ ∀ a ∈ s.addrs, isBlockedAddress a opts.blockPrivate = false := by
  induction h generalizing i with
  | nothing => simp at hs
  | stop hsent =>
    cases i with
    | zero =>
      cases hs
      rw [hsent.url]
      exact ⟨hsent.resolved, hsent.allowed⟩
    | succ i => simp at hs
  | follow hsent _ _ _ ih =>
    cases i with
    | zero =>
      cases hs
      rw [hsent.url]
      exact ⟨hsent.resolved, hsent.allowed⟩
    | succ i =>
      have hi := ih (i := i) (by simpa using hs)
      rwa [Nat.add_assoc, Nat.add_comm 1 i] at hi

theorem Chain.stays_https (h : Chain web opts origin left hop u init stripped log) (hu : u.protocol = "https:") :
    ∀ s ∈ log, s.url.protocol = "https:" := by
  induction h with
  | nothing => simp
  | stop hsent =>
    intro s hs
    rw [List.mem_singleton.mp hs, hsent.url]
    exact hu
  | follow hsent hdown _ hrest ih =>
    intro s hs
    rcases List.mem_cons.mp hs with rfl | hs
    · rw [hsent.url]
      exact hu
    · cases hrest with
      | nothing => cases hs
      | stop hnext | follow hnext _ _ _ => exact ih (hnext.protocol.resolve_left fun h => hdown ⟨hu, h⟩) s hs

theorem Chain.encrypted (h : Chain web opts origin left hop u init stripped log) :
    log.Pairwise fun s t => s.url.protocol = "https:" → t.url.protocol = "https:" := by
  induction h with
  | nothing => exact .nil
  | stop _ => exact List.pairwise_singleton _ _
  | follow hsent hdown hbody hrest ih =>
    refine List.pairwise_cons.mpr ⟨fun t ht hs => ?_, ih⟩
    rw [hsent.url] at hs
    exact (Chain.follow hsent hdown hbody hrest).stays_https hs t (List.mem_cons_of_mem _ ht)

/-- A chain that is off the origin has been marked as stripped. -/
def Marked (origin : String) (u : Url) (stripped : Bool) : Prop := u.origin ≠ origin → stripped = true

theorem marked_next (next : Url) (stripped : Bool) : Marked origin next (stripped || next.origin != origin) := by
  intro h
  simp [h]

theorem mem_hopHeaders {kv : String × String} (h : kv ∈ hopHeaders opts init false) :
    kv ∈ newHeaders init.headers ∧ kv.1 ∈ CROSS_ORIGIN_SAFE := by
  simp only [hopHeaders, Bool.false_eq_true, if_false] at h
  obtain ⟨hmem, hsafe⟩ := List.mem_filter.mp h
  exact ⟨hmem, by simpa using hsafe⟩

theorem Chain.headers_of_stripped (h : Chain web opts origin left hop u init stripped log) (hstripped : stripped = true) :
    ∀ s ∈ log, ∀ kv ∈ s.headers, kv ∈ newHeaders init.headers ∧ kv.1 ∈ CROSS_ORIGIN_SAFE := by
  induction h with
  | nothing => simp
  | stop hsent =>
    intro s hs kv hkv
    rw [List.mem_singleton.mp hs, hsent.headers, hstripped, Bool.not_true, Bool.and_false] at hkv
    exact mem_hopHeaders hkv
  | follow hsent _ _ _ ih =>
    intro s hs kv hkv
    rcases List.mem_cons.mp hs with rfl | hs
    · rw [hsent.headers, hstripped, Bool.not_true, Bool.and_false] at hkv
      exact mem_hopHeaders hkv
    · have hrest := ih (by rw [hstripped, Bool.true_or]) s hs kv hkv
      rwa [nextInit_headers] at hrest

end GuardedAux

open GuardedAux

/-! ## Whole chains -/

/-- The chain has left the first origin: before this request, or with it. -/
def Strayed (origin : String) (before : List Sent) (s : Sent) : Prop := s.url.origin ≠ origin ∨ ∃ t ∈ before, t.url.origin ≠ origin

/-- What a guarded fetch may send, in order: at most one request and the redirects allowed; once the chain has left the origin,
only headers the caller passed that are on the allowlist; a body, which is the caller's, only while it has not; no step from https
to http; and each request to a host that resolved, when it was sent, to allowed addresses only, over a connection to these. -/
structure Guarded (web : Web) (opts : FetchOptions) (init : RequestInit) (origin : String) (sent : List Sent) : Prop where
  few : sent.length ≤ MAX_REDIRECTS + 1
  headers : ∀ before s after, sent = before ++ s :: after → Strayed origin before s →
    ∀ kv ∈ s.headers, kv ∈ newHeaders init.headers ∧ kv.1 ∈ CROSS_ORIGIN_SAFE
  bodies : ∀ before s after, sent = before ++ s :: after → s.body ≠ none → s.body = init.body ∧ ¬Strayed origin before s
  encrypted : sent.Pairwise fun s t => s.url.protocol = "https:" → t.url.protocol = "https:"
  addresses : ∀ hop s, sent[hop]? = some s →
    web.lookup hop (bareHostname s.url) = some s.addrs ∧ ∀ a ∈ s.addrs, isBlockedAddress a opts.blockPrivate = false

namespace GuardedAux

variable {web : Web} {opts : FetchOptions} {origin : String} {left hop : Nat} {u : Url} {init : RequestInit} {stripped : Bool}
  {log : List Sent}

theorem of_singleton {x s : Sent} {before after : List Sent} (h : [x] = before ++ s :: after) : before = [] ∧ x = s := by
  cases before with
  | nil => exact ⟨rfl, (List.cons.inj h).1⟩
  | cons t before => simp at h

theorem strayed_cons {s t : Sent} {before : List Sent} (h : Strayed origin (t :: before) s) :
    t.url.origin ≠ origin ∨ Strayed origin before s := by
  rcases h with h | ⟨x, hx, hne⟩
  · exact .inr (.inl h)
  · rcases List.mem_cons.mp hx with rfl | hx
    · exact .inl hne
    · exact .inr (.inr ⟨x, hx, hne⟩)

theorem Chain.headers (h : Chain web opts origin left hop u init stripped log) (hmark : Marked origin u stripped)
    {before after : List Sent} {s : Sent} (hlog : log = before ++ s :: after) (hs : Strayed origin before s) :
    ∀ kv ∈ s.headers, kv ∈ newHeaders init.headers ∧ kv.1 ∈ CROSS_ORIGIN_SAFE := by
  induction h generalizing before with
  | nothing => simp at hlog
  | @stop left hop u init stripped s₀ hsent =>
    obtain ⟨rfl, rfl⟩ := of_singleton hlog
    have hne : u.origin ≠ origin := by
      rcases hs with hs | ⟨_, ht, _⟩
      · rwa [hsent.url] at hs
      · cases ht
    have hchain : Chain web opts origin left hop u init stripped [s₀] := .stop hsent
    exact hchain.headers_of_stripped (hmark hne) s₀ (List.mem_singleton.mpr rfl)
  | @follow left hop u init stripped s₀ next status log hsent hdown hbody hrest ih =>
    by_cases hne : u.origin = origin
    · cases before with
      | nil =>
        obtain ⟨rfl, rfl⟩ := List.cons.inj hlog
        rcases hs with hs | ⟨_, ht, _⟩
        · rw [hsent.url] at hs
          exact absurd hne hs
        · cases ht
      | cons t before =>
        obtain ⟨rfl, htail⟩ := List.cons.inj hlog
        have hs' : Strayed origin before s := by
          refine (strayed_cons hs).resolve_left ?_
          rw [hsent.url]
          exact fun h => h hne
        have hrest' := ih (marked_next next stripped) htail hs'
        rwa [nextInit_headers] at hrest'
    · refine (Chain.follow hsent hdown hbody hrest).headers_of_stripped (hmark hne) s ?_
      rw [hlog]
      exact List.mem_append_right _ List.mem_cons_self

theorem Chain.bodies (h : Chain web opts origin left hop u init stripped log)
    (hhome : init.body ≠ none → u.origin = origin) {before after : List Sent} {s : Sent} (hlog : log = before ++ s :: after)
    (hbody : s.body ≠ none) : s.body = init.body ∧ ¬Strayed origin before s := by
  induction h generalizing before with
  | nothing => simp at hlog
  | @stop left hop u init stripped s₀ hsent =>
    obtain ⟨rfl, rfl⟩ := of_singleton hlog
    rw [hsent.body] at hbody
    refine ⟨hsent.body, ?_⟩
    rintro (hs | ⟨_, ht, _⟩)
    · rw [hsent.url] at hs
      exact hs (hhome hbody)
    · cases ht
  | @follow left hop u init stripped s₀ next status log hsent hdown hkept hrest ih =>
    cases before with
    | nil =>
      obtain ⟨rfl, rfl⟩ := List.cons.inj hlog
      rw [hsent.body] at hbody
      refine ⟨hsent.body, ?_⟩
      rintro (hs | ⟨_, ht, _⟩)
      · rw [hsent.url] at hs
        exact hs (hhome hbody)
      · cases ht
    | cons t before =>
      obtain ⟨rfl, htail⟩ := List.cons.inj hlog
      have hnext : (nextInit init status).body ≠ none → init.body ≠ none ∧ next.origin = origin := by
        intro hb
        have hsame : init.body ≠ none := by
          rcases nextInit_body init status with h | h
          · exact absurd h hb
          · rwa [h] at hb
        refine ⟨hsame, ?_⟩
        by_contra hne
        exact hkept ⟨preserves_of_body hsent.accepted hb, hsame, hne⟩
      obtain ⟨heq, hs⟩ := ih (fun hb => (hnext hb).2) htail
      have hb : (nextInit init status).body ≠ none := heq ▸ hbody
      refine ⟨?_, fun hstray => ?_⟩
      · rcases nextInit_body init status with h | h
        · exact absurd h hb
        · rw [heq, h]
      · rcases strayed_cons hstray with h | h
        · rw [hsent.url] at h
          exact h (hhome (hnext hb).1)
        · exact hs h

end GuardedAux

/-- The origin of the URL a fetch is called with. -/
def inputOrigin (web : Web) (input : String) : String := ((web.urls.parse input).map Url.origin).getD "null"

/-- Whatever the resolver and the servers answer at each hop, a guarded fetch sends no more than it may. -/
theorem guardedFetch_guarded (web : Web) (opts : FetchOptions) (input : String) (init : RequestInit) :
    Guarded web opts init (inputOrigin web input) (guardedFetch web opts input init).1 := by
  cases hu : web.urls.parse input with
  | none =>
    have hnone : (guardedFetch web opts input init).1 = [] := by rw [guardedFetch, hu]
    rw [hnone]
    refine ⟨by simp, ?_, ?_, .nil, by simp⟩
    · intro before s after hlog
      simp at hlog
    · intro before s after hlog
      simp at hlog
  | some u =>
    have horigin : inputOrigin web input = u.origin := by simp [inputOrigin, hu]
    have hchain : Chain web opts u.origin MAX_REDIRECTS 0 u init false _ := chain_of_doFetch MAX_REDIRECTS 0 u init false
    have heq : guardedFetch web opts input init = doFetch web opts u.origin MAX_REDIRECTS 0 u init false := by
      rw [guardedFetch, hu]
    rw [horigin, heq]
    refine ⟨hchain.few, ?_, ?_, hchain.encrypted, ?_⟩
    · intro before s after hlog hs
      exact hchain.headers (fun h => absurd rfl h) hlog hs
    · intro before s after hlog hs
      exact hchain.bodies (fun _ => rfl) hlog hs
    · intro hop s hs
      have haddr := hchain.addresses hs
      rwa [Nat.zero_add] at haddr

end Capka.Net
