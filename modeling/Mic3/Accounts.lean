import Mic3.Catalog
import Mic3.Lib.LockTable
import Mic3.Lib.System
import Mic3.Lib.Table

/-! `ResolveCurrentUser.execute` over the account tables: any number of calls, each a transaction or two
whose statements interleave with those of the others. -/
namespace Mic3
open Relational Interleaving

def memberRole : String := "member"

structure User where
  id : UUID
  email : Option String
  displayName : Option String
  isActive : Bool
  deriving DecidableEq

structure UserIdentity where
  issuer : String
  subject : String
  userId : UUID
  deriving DecidableEq

structure UserRole where
  userId : UUID
  roleName : String
  deriving DecidableEq

instance : Keyed User UUID := ⟨User.id⟩
instance : Keyed UserIdentity (String × String) := ⟨fun i => (i.issuer, i.subject)⟩
instance : Keyed UserRole (UUID × String) := ⟨fun r => (r.userId, r.roleName)⟩

/-- The committed account tables; `roles` are the names of the roles there are. -/
structure AccountTables where
  users : Table User
  identities : Table UserIdentity
  roles : List String
  userRoles : Table UserRole

/-- A snapshot of an account; `roles` is a set. -/
structure UserAccount where
  id : UUID
  email : Option String
  displayName : Option String
  isActive : Bool
  roles : List String
  deriving DecidableEq

structure UserProfileUpdates where
  email : Option String
  displayName : Option String
  deriving DecidableEq

structure CurrentUser where
  id : UUID
  email : Option String
  displayName : Option String
  roles : List String
  deriving DecidableEq

structure ValidatedIdentity where
  issuer : String
  subject : String
  email : Option String
  displayName : Option String

abbrev ValidatedIdentity.key (identity : ValidatedIdentity) : String × String :=
  (identity.issuer, identity.subject)

/-- What a call raises. -/
inductive ResolveError where
  | inactiveUser
  | userProvisioningConfiguration
  | identityProvisioning
  | integrityError
  deriving DecidableEq

namespace AccountTables

def rolesOf (t : AccountTables) (id : UUID) : List String :=
  (t.userRoles.rows.filter fun r => r.userId = id).map UserRole.roleName

/-- `find_by_identity`: the user of the identity, with its roles. -/
def findByIdentity (t : AccountTables) (key : String × String) : Option UserAccount := do
  let identity ← t.identities.find? key
  let user ← t.users.find? identity.userId
  return ⟨user.id, user.email, user.displayName, user.isActive, (t.rolesOf user.id).filter (· ≠ "")⟩

end AccountTables

def UserProfileUpdates.hasChanges (u : UserProfileUpdates) : Bool := u.email.isSome || u.displayName.isSome

/-- The claims of the token that differ from the stored profile. -/
def UserAccount.updates (account : UserAccount) (identity : ValidatedIdentity) : UserProfileUpdates where
  email := if identity.email = account.email then none else identity.email
  displayName := if identity.displayName = account.displayName then none else identity.displayName

/-- The snapshot that `update_profile` returns. -/
def UserAccount.updated (account : UserAccount) (u : UserProfileUpdates) : UserAccount :=
  { account with email := u.email.or account.email, displayName := u.displayName.or account.displayName }

def UserAccount.asCurrentUser (account : UserAccount) : Except ResolveError CurrentUser :=
  if account.isActive then .ok ⟨account.id, account.email, account.displayName, sorted account.roles⟩
  else .error .inactiveUser

/-- The account that `create_with_identity_and_role` returns. -/
def User.account (user : User) (role : String) : UserAccount :=
  ⟨user.id, user.email, user.displayName, user.isActive, [role]⟩

/-- What a transaction writes when it commits. -/
inductive AccountChange where
  | nothing
  | provision (user : User) (identity : UserIdentity) (role : UserRole)
  | update (id : UUID) (updates : UserProfileUpdates)

def User.update (user : User) (u : UserProfileUpdates) : User :=
  { user with email := u.email.or user.email, displayName := u.displayName.or user.displayName }

/-- The tables after a commit; a constraint that fails refuses it. -/
def AccountChange.apply : AccountChange → AccountTables → Option AccountTables
  | .nothing, t => some t
  | .provision user identity role, t => do
    return { t with
      users := ← t.users.insert user
      identities := ← t.identities.insert identity
      userRoles := ← t.userRoles.insert role }
  | .update id u, t => some { t with users := t.users.modify id (·.update u) }

/-- What a transaction locks: a key of `users`, `user_identities` or `user_roles`. -/
inductive AccountKey where
  | user (id : UUID)
  | identity (key : String × String)
  | userRole (key : UUID × String)
  deriving DecidableEq

structure AccountWorld where
  tables : AccountTables
  locks : LockTable AccountKey ℕ

inductive AccountEffect where
  | read
  | lock (key : AccountKey)
  | commit (change : AccountChange)
  | rollback

/-- The world after an effect; `none` while it has to wait for another transaction. -/
def AccountWorld.apply (w : AccountWorld) (p : ℕ) : AccountEffect → Option AccountWorld
  | .read => some w
  | .lock key => (w.locks.acquire p key).map fun locks => { w with locks }
  | .commit change => (change.apply w.tables).map fun tables => ⟨tables, w.locks.release p⟩
  | .rollback => some { w with locks := w.locks.release p }

namespace ResolveCurrentUser

inductive Pc where
  | find (again : Bool)
  | selectRole
  | insertUser
  | insertIdentity (user : User) (roleInserted : Bool)
  | insertRole (user : User) (identityInserted : Bool)
  /-- `IdentityAlreadyAssignedError` leaves the first transaction. -/
  | assigned
  | updateProfile (account : UserAccount) (updates : UserProfileUpdates)
  | commit (change : AccountChange) (user : CurrentUser)

/-- Where a statement leaves a call. -/
inductive Outcome where
  | running (pc : Pc)
  | returned (user : CurrentUser)
  | raised (e : ResolveError)

/-- The end of the `with` block. An exception there rolls back. -/
def conclude (effect : AccountEffect) (change : AccountChange) (account : UserAccount) : AccountEffect × Outcome :=
  match account.asCurrentUser with
  | .ok user => (effect, .running (.commit change user))
  | .error e => (.rollback, .raised e)

/-- What is committed for a new account. -/
def provision (identity : ValidatedIdentity) (user : User) : AccountChange :=
  .provision user ⟨identity.issuer, identity.subject, user.id⟩ ⟨user.id, memberRole⟩

def created (effect : AccountEffect) (identity : ValidatedIdentity) (user : User) : AccountEffect × Outcome :=
  conclude effect (provision identity user) (user.account memberRole)

/-- A generated key, and which of the two assignments the flush inserts first. -/
structure Input where
  uuid : UUID
  roleFirst : Bool

def step (identity : ValidatedIdentity) (t : AccountTables) (i : Input) : Pc → AccountEffect × Outcome
  | .find again =>
    match t.findByIdentity identity.key with
    | none => if again then (.rollback, .raised .identityProvisioning) else (.read, .running .selectRole)
    | some account =>
      if ¬ account.isActive then (.rollback, .raised .inactiveUser)
      else if (account.updates identity).hasChanges then
        (.read, .running (.updateProfile account (account.updates identity)))
      else conclude .read .nothing account
  | .selectRole =>
    if memberRole ∈ t.roles then (.read, .running .insertUser)
    else (.rollback, .raised .userProvisioningConfiguration)
  | .insertUser =>
    let user : User := ⟨i.uuid, identity.email, identity.displayName, true⟩
    if (t.users.find? user.id).isSome then (.rollback, .raised .integrityError)
    else (.lock (.user user.id),
      .running (if i.roleFirst then .insertRole user false else .insertIdentity user false))
  | .insertIdentity user roleInserted =>
    if (t.identities.find? identity.key).isSome then (.read, .running .assigned)
    else if roleInserted then created (.lock (.identity identity.key)) identity user
    else (.lock (.identity identity.key), .running (.insertRole user true))
  | .insertRole user identityInserted =>
    if (t.userRoles.find? (user.id, memberRole)).isSome ∨ memberRole ∉ t.roles then
      (.rollback, .raised .integrityError)
    else if identityInserted then created (.lock (.userRole (user.id, memberRole))) identity user
    else (.lock (.userRole (user.id, memberRole)), .running (.insertIdentity user true))
  | .assigned => (.rollback, .running (.find true))
  | .updateProfile account updates =>
    conclude (.lock (.user account.id)) (.update account.id updates) (account.updated updates)
  | .commit change user => (.commit change, .returned user)

end ResolveCurrentUser

/-- What a process is doing. -/
inductive Caller where
  | idle
  | resolve (identity : ValidatedIdentity) (pc : ResolveCurrentUser.Pc)

inductive CallerAction where
  | start (identity : ValidatedIdentity)
  | run (i : ResolveCurrentUser.Input)
  /-- The statement takes effect, and its caller sees an exception. -/
  | lost (i : ResolveCurrentUser.Input)
  /-- The statement fails, or the connection is lost: the transaction is gone. -/
  | abort

def ResolveCurrentUser.Outcome.caller (identity : ValidatedIdentity) : Outcome → Caller
  | .running pc => .resolve identity pc
  | .returned _ | .raised _ => .idle

def callerAct (p : ℕ) (a : CallerAction) (w : AccountWorld) (l : Caller) : Option (AccountWorld × Caller) :=
  match a, l with
  | .start identity, .idle => some (w, .resolve identity (.find false))
  | .run i, .resolve identity pc =>
    let (effect, outcome) := ResolveCurrentUser.step identity w.tables i pc
    (w.apply p effect).map fun w' => (w', outcome.caller identity)
  | .lost i, .resolve identity pc =>
    (w.apply p (ResolveCurrentUser.step identity w.tables i pc).1).map fun w' =>
      ({ w' with locks := w'.locks.release p }, .idle)
  | .abort, _ => some ({ w with locks := w.locks.release p }, .idle)
  | _, _ => none

/-- What administrators and operators commit meanwhile. They delete no user and no identity. -/
inductive AdministrationEvent where
  | setActive (id : UUID) (active : Bool)
  | editProfile (id : UUID) (email displayName : Option String)
  | grantRole (id : UUID) (role : String)
  | revokeRole (id : UUID) (role : String)

def AccountTables.administer (t : AccountTables) : AdministrationEvent → Option AccountTables
  | .setActive id active => some { t with users := t.users.modify id fun u => { u with isActive := active } }
  | .editProfile id email displayName =>
    some { t with users := t.users.modify id fun u => { u with email, displayName } }
  | .grantRole id role =>
    if (t.users.find? id).isSome ∧ role ∈ t.roles then
      (t.userRoles.insert ⟨id, role⟩).map fun userRoles => { t with userRoles }
    else none
  | .revokeRole id role => some { t with userRoles :=
      ⟨t.userRoles.rows.filter fun r => key r ≠ (id, role), t.userRoles.nodup.sublist (List.filter_sublist.map _)⟩ }

def accounts : System ℕ AccountWorld Caller CallerAction AdministrationEvent where
  act := callerAct
  env := fun e w => (w.tables.administer e).map fun tables => { w with tables }

/-- Everything refers to what exists, and there is a member role. -/
structure AccountTables.Consistent (t : AccountTables) : Prop where
  identities : ∀ r ∈ t.identities.rows, (t.users.find? r.userId).isSome
  userRoles : ∀ r ∈ t.userRoles.rows, (t.users.find? r.userId).isSome
  member : memberRole ∈ t.roles

/-- No call is under way. -/
def AccountTables.start (t : AccountTables) : Config ℕ AccountWorld Caller :=
  ⟨⟨t, .free⟩, fun _ => .idle⟩

end Mic3
