import Capka.Manage.Approval

/-!
# The folder collection

Server folders expose the operator's filesystem, so the collection keeps its adds confirm-gated always. Its pre-flight asks the
settings, the sandbox controller and the rows already attached; all three can answer otherwise a moment later.
-/

namespace Capka

namespace Manage

/-- A folder of the server, or one synced from the user's own computer. -/
inductive FolderKind
  | host
  | pc
  deriving Repr, DecidableEq

/-- An attached folder; `hostPath` is the server path that is mounted. -/
structure AttachedFolder where
  id : String
  userId : String
  sessionKey : String
  kind : FolderKind
  name : String
  hostPath : Option String
  readOnly : Bool
  deriving Repr, DecidableEq

/-- What the folder handlers read and write: two settings, the controller's answer to a mount check (`.error` when it cannot be
reached, `some code` when it refuses), and the rows. -/
structure FolderWorld where
  hostFolderAccess : Option String
  pcFolderAccess : Option String
  validateMount : String → Except String (Option String)
  attached : List AttachedFolder

/-- The fields of an add. -/
structure FolderArgs where
  kind : Option String
  path : Option String
  name : Option String
  readOnly : Option String
  deriving Repr, DecidableEq

/-- Who may connect a folder from their own computer. -/
inductive PcFolderLevel
  | off
  | admins
  | everyone
  deriving Repr, DecidableEq

def hostFolderEnabled (s : FolderWorld) : Bool := s.hostFolderAccess = some "true"

def pcFolderLevel (s : FolderWorld) : PcFolderLevel :=
  if s.pcFolderAccess = some "admins" then .admins
  else if s.pcFolderAccess = some "everyone" then .everyone
  else .off

def canAttachPc (level : PcFolderLevel) (isAdmin : Bool) : Bool :=
  level = .everyone || (level = .admins && isAdmin)

def mountError (code : String) : String :=
  if code = "outside_allowlist" then "That path isn't within the folders this server allows sharing."
  else if code = "not_absolute" then "Enter a full path starting with / (e.g. /srv/reports)."
  else "That folder can't be shared — it's a system location on the server."

/-- `addSchema`: the two enumerations and the non-empty path. -/
def folderSchema (a : FolderArgs) : Except String FolderArgs :=
  if a.kind.any (fun k => k ≠ "host" && k ≠ "pc") then .error "Invalid option: expected one of \"host\"|\"pc\""
  else if a.path = some "" then .error "Too small: expected string to have >=1 characters"
  else if a.readOnly.any (fun r => r ≠ "true" && r ≠ "false") then
    .error "Invalid option: expected one of \"true\"|\"false\""
  else .ok a

/-- The names attached in a workspace. -/
def names (sessionKey : String) (s : FolderWorld) : List String :=
  (s.attached.filter (·.sessionKey = sessionKey)).map (·.name)

section Collection

variable (deriveName : FolderArgs → String) (randomUUID : FolderWorld → String)

/-- The part of `validateAdd` that both kinds share. -/
def validateName (ctx : ManageContext) (a : FolderArgs) (s : FolderWorld) : Except String Unit :=
  match ctx.sessionKey with
  | none => .error "No active workspace — open a chat to attach a folder."
  | some key =>
    if deriveName a ∈ names key s then
      .error ("A folder named \"" ++ deriveName a ++ "\" is already attached here — choose a different name.")
    else .ok ()

/-- `validateAdd`. -/
def validateFolder (ctx : ManageContext) (a : FolderArgs) (s : FolderWorld) : Except String Unit :=
  if a.kind.getD "host" = "host" then
    if !hostFolderEnabled s then .error "Server folder access is turned off. An administrator can enable it in settings."
    else if !ctx.isAdmin then .error "Server folders can only be attached by an administrator."
    else
      match a.path with
      | none => .error "A server folder path is required (an absolute path on the server, e.g. /srv/reports)."
      | some path =>
        match s.validateMount path with
        | .error msg => .error msg
        | .ok (some code) => .error (mountError code)
        | .ok none => validateName deriveName ctx a s
  else if !canAttachPc (pcFolderLevel s) ctx.isAdmin then
    .error (if pcFolderLevel s = .off then "Personal folder access is turned off. An administrator can enable it in settings."
      else "Connecting a personal folder is limited to administrators.")
  else validateName deriveName ctx a s

/-- `add`: a folder of the user's computer hands the picker back; a server folder is inserted. -/
def addFolder (ctx : ManageContext) (a : FolderArgs) (s : FolderWorld) : Except String (String × FolderWorld) :=
  if a.kind.getD "host" = "pc" then .ok (deriveName a, s)
  else
    match ctx.sessionKey, a.path with
    | some key, some path =>
      let row : AttachedFolder :=
        { id := randomUUID s, userId := ctx.userId, sessionKey := key, kind := .host, name := deriveName a,
          hostPath := some path, readOnly := a.readOnly ≠ some "false" }
      .ok (deriveName a, { s with attached := s.attached ++ [row] })
    | _, _ => .error "null value in column"

/-- `list`. -/
def listFolders (ctx : ManageContext) (s : FolderWorld) : Except String (List CollectionItem) :=
  if !hostFolderEnabled s && pcFolderLevel s = .off then
    .error "Folder access is turned off. An administrator can enable it in settings."
  else
    match ctx.sessionKey with
    | none => .error "No active workspace — open a chat to see attached folders."
    | some key => .ok ((s.attached.filter (·.sessionKey = key)).map fun f => { id := f.id, title := f.name })

/-- `remove`. -/
def removeFolder (ctx : ManageContext) (itemId : String) (s : FolderWorld) : Except String (String × FolderWorld) :=
  match s.attached.find? (·.id = itemId) with
  | none => .error "No such folder."
  | some f =>
    if some f.sessionKey ≠ ctx.sessionKey then .error "No such folder."
    else if f.kind = .host && !ctx.isAdmin then .error "Only an administrator can detach a server folder."
    else if f.kind = .pc && f.userId ≠ ctx.userId && !ctx.isAdmin then
      .error "Only the owner or an administrator can remove this folder."
    else .ok (f.name, { s with attached := s.attached.filter (·.id ≠ itemId) })

/-- `usage`. -/
def folderUsage : String :=
  "add args: \x7bpath\x7d attaches a SERVER folder at /folders/<name> (admin only; default read-only, pass " ++
    "\x7breadOnly:\"false\"\x7d for read-write, \x7bname\x7d overrides the mount name). " ++
    "add \x7bkind:\"pc\"\x7d connects a folder from the USER's OWN computer — the user picks it in the browser " ++
    "(returns a pick action; no path). remove detaches by itemId. Attaching/detaching a server folder restarts the sandbox."

/-- `folderCollection`. How a mount name is spelled and how an id is drawn do not matter here. -/
def folderCollection : Collection FolderWorld FolderArgs where
  id := "folder"
  requiredRole := .user
  usage := some folderUsage
  alwaysConfirm := true
  confirmEnable := false
  addSchema := some folderSchema
  list := listFolders
  add := some (addFolder deriveName randomUUID)
  validateAdd := some (validateFolder deriveName)
  remove := some removeFolder
  setEnabled := none

end Collection

/-! ## An add that was only doomed for a moment -/

namespace FolderCex

/-- A server that shares folders, with its controller in the given state. -/
def server (validateMount : String → Except String (Option String)) : FolderWorld where
  hostFolderAccess := some "true"
  pcFolderAccess := none
  validateMount := validateMount
  attached := []

/-- The folder collection alone; without the autonomy control the org is supervised. -/
def registry : Registry FolderWorld FolderArgs where
  controls := []
  collections := [folderCollection (fun _ => "reports") (fun _ => "f1")]

/-- An administrator's run. -/
def admin : ManageIdentity where
  userId := "u1"
  isAdmin := true
  projectId := none
  sessionKey := some "chat1"

/-- The call: attach `/srv/reports`, read-write. -/
def call : ManageArgs FolderArgs where
  action := .add
  target := some "folder"
  value := none
  itemId := none
  args := some { kind := none, path := some "/srv/reports", name := none, readOnly := some "false" }

/-- The controller cannot be reached. -/
def unreachable : FolderWorld := server fun _ => .error "fetch failed"

/-- The controller is back. -/
def reachable : FolderWorld := server fun _ => .ok none

end FolderCex

open FolderCex in
/-- A server folder, always gated by the collection's own word, is mounted without a card: the controller was unreachable when
the check ran, so the add looked doomed, and is back when the call is executed in the same step. -/
theorem never_unapproved_false :
    ¬∀ (reg : Registry FolderWorld FolderArgs) (noArgs : FolderArgs) (who : ManageIdentity)
      (inflight : List (String × ManageResult)) (a : ManageArgs FolderArgs) (toolCallId : String)
      (checked applied : Nat → FolderWorld), NeverUnapproved reg noArgs who inflight a toolCallId checked applied := by
  intro hall
  have hask := hall registry { kind := none, path := none, name := none, readOnly := none } admin [] call "call1"
    (fun _ => unreachable) (fun _ => reachable) (.add "folder" (call.args.getD ⟨none, none, none, none⟩)) (by decide)
    ⟨folderCollection (fun _ => "reports") (fun _ => "f1"), by rfl, by decide, .inl rfl⟩ (by decide)
  revert hask
  decide

end Manage

end Capka
