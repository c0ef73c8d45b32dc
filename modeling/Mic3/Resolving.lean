import Mic3.Accounts

/-! What a call of `ResolveCurrentUser.execute` knows of the accounts at each of its statements, and that no
other call takes it away. -/
namespace Mic3
open Relational Interleaving

/-- The identity is mapped to this user. -/
def AccountTables.Maps (t : AccountTables) (key : String × String) (id : UUID) : Prop :=
  ∃ r, t.identities.find? key = some r ∧ r.userId = id

/-- No user has this id, and only `p` can insert one. -/
def AccountWorld.Fresh (w : AccountWorld) (p : ℕ) (id : UUID) : Prop :=
  w.tables.users.find? id = none ∧ w.locks.owner (.user id) = some p

/-- The identity is mapped to nobody, and only `p` can map it. -/
def AccountWorld.Unassigned (w : AccountWorld) (p : ℕ) (key : String × String) : Prop :=
  w.tables.identities.find? key = none ∧ w.locks.owner (.identity key) = some p

/-- An active account that was read for the identity. -/
structure AccountWorld.Known (w : AccountWorld) (key : String × String) (account : UserAccount) : Prop where
  maps : w.tables.Maps key account.id
  active : account.isActive = true

namespace ResolveCurrentUser

/-- What a call returns for an account. -/
structure Returns (account : UserAccount) (user : CurrentUser) : Prop where
  id : user.id = account.id
  roles : user.roles = sorted account.roles

/-- The commit of a new account. -/
structure Provisions (w : AccountWorld) (p : ℕ) (identity : ValidatedIdentity) (change : AccountChange)
    (user : User) (current : CurrentUser) : Prop where
  change_eq : change = provision identity user
  fresh : w.Fresh p user.id
  unassigned : w.Unassigned p identity.key
  active : user.isActive = true
  returns : Returns (user.account memberRole) current

/-- The commit for an account that was read: of its profile, or of nothing. -/
structure Synchronizes (w : AccountWorld) (identity : ValidatedIdentity) (change : AccountChange)
    (account : UserAccount) (current : CurrentUser) : Prop where
  known : w.Known identity.key account
  change_eq : change = .nothing ∨ ∃ updates, change = .update account.id updates
  returns : Returns account current

/-- What a call knows at each of its statements. -/
def Knows (w : AccountWorld) (p : ℕ) (identity : ValidatedIdentity) : Pc → Prop
  | .find again => again = true → (w.tables.identities.find? identity.key).isSome
  | .assigned => (w.tables.identities.find? identity.key).isSome
  | .selectRole | .insertUser => True
  | .insertIdentity user _ => w.Fresh p user.id ∧ user.isActive = true
  | .insertRole user identityInserted => w.Fresh p user.id ∧ user.isActive = true ∧
      (identityInserted = true → w.Unassigned p identity.key)
  | .updateProfile account _ => w.Known identity.key account
  | .commit change current => (∃ user, Provisions w p identity change user current) ∨
      ∃ account, Synchronizes w identity change account current

theorem asCurrentUser_ok {account : UserAccount} {user : CurrentUser} (h : account.asCurrentUser = .ok user) :
    Returns account user := by
  unfold UserAccount.asCurrentUser at h
  split at h
  · obtain rfl := Except.ok.inj h
    exact ⟨rfl, rfl⟩
  · contradiction

/-- The end of a transaction: its commit is next, or an exception leaves it. -/
theorem conclude_cases {effect e : AccountEffect} {change : AccountChange} {account : UserAccount} {o : Outcome}
    (h : conclude effect change account = (e, o)) : (e = .rollback ∧ o = .raised .inactiveUser) ∨
      e = effect ∧ ∃ user, Returns account user ∧ o = .running (.commit change user) := by
  unfold conclude at h
  split at h
  · rename_i user huser
    obtain ⟨rfl, rfl⟩ := Prod.mk.inj h
    exact .inr ⟨rfl, user, asCurrentUser_ok huser, rfl⟩
  · rename_i err herr
    obtain ⟨rfl, rfl⟩ := Prod.mk.inj h
    have hinactive : err = .inactiveUser := by
      unfold UserAccount.asCurrentUser at herr
      split at herr
      · contradiction
      · exact (Except.error.inj herr).symm
    exact .inl ⟨rfl, by rw [hinactive]⟩

/-- What a statement of a call does, the constructor of its `Pc` given. -/
theorem step_cases {identity : ValidatedIdentity} {t : AccountTables} {i : Input} {pc : Pc}
    {e : AccountEffect} {o : Outcome} : step identity t i pc = (e, o) →
    (e = .rollback ∧ ∃ err, o = .raised err ∧ (err = .identityProvisioning →
      pc = .find true ∧ t.findByIdentity identity.key = none)) ∨
    match pc with
    | .find _ => (e = .read ∧ o = .running .selectRole) ∨
        ∃ account, t.findByIdentity identity.key = some account ∧ account.isActive = true ∧ e = .read ∧
          ((∃ updates, o = .running (.updateProfile account updates)) ∨
            ∃ user, Returns account user ∧ o = .running (.commit .nothing user))
    | .selectRole => e = .read ∧ o = .running .insertUser
    | .insertUser => ∃ user : User, t.users.find? user.id = none ∧ user.isActive = true ∧
        e = .lock (.user user.id) ∧ (o = .running (.insertRole user false) ∨ o = .running (.insertIdentity user false))
    | .insertIdentity user roleInserted =>
        ((t.identities.find? identity.key).isSome ∧ e = .read ∧ o = .running .assigned) ∨
          t.identities.find? identity.key = none ∧ e = .lock (.identity identity.key) ∧
            (roleInserted = false ∧ o = .running (.insertRole user true) ∨
              ∃ current, Returns (user.account memberRole) current ∧
                o = .running (.commit (provision identity user) current))
    | .insertRole user identityInserted => e = .lock (.userRole (user.id, memberRole)) ∧
        (identityInserted = false ∧ o = .running (.insertIdentity user true) ∨
          identityInserted = true ∧ ∃ current, Returns (user.account memberRole) current ∧
            o = .running (.commit (provision identity user) current))
    | .assigned => e = .rollback ∧ o = .running (.find true)
    | .updateProfile account updates => e = .lock (.user account.id) ∧
        ∃ user, Returns (account.updated updates) user ∧ o = .running (.commit (.update account.id updates) user)
    | .commit change user => e = .commit change ∧ o = .returned user := by
  intro hs
  cases pc with
  | find again =>
    simp only [step] at hs
    split at hs
    · split at hs <;> obtain ⟨rfl, rfl⟩ := Prod.mk.inj hs
      · rename_i hnone hagain
        exact .inl ⟨rfl, _, rfl, fun _ => ⟨congrArg _ hagain, hnone⟩⟩
      · exact .inr (.inl ⟨rfl, rfl⟩)
    · rename_i account haccount
      split at hs
      · obtain ⟨rfl, rfl⟩ := Prod.mk.inj hs
        exact .inl ⟨rfl, _, rfl, fun h => (by cases h)⟩
      · rename_i hactive
        have hactive : account.isActive = true := not_not.mp hactive
        split at hs
        · obtain ⟨rfl, rfl⟩ := Prod.mk.inj hs
          exact .inr (.inr ⟨account, haccount, hactive, rfl, .inl ⟨_, rfl⟩⟩)
        · rcases conclude_cases hs with ⟨rfl, rfl⟩ | ⟨rfl, user, huser, rfl⟩
          · exact .inl ⟨rfl, _, rfl, fun h => (by cases h)⟩
          · exact .inr (.inr ⟨account, haccount, hactive, rfl, .inr ⟨user, huser, rfl⟩⟩)
  | selectRole =>
    simp only [step] at hs
    split at hs <;> obtain ⟨rfl, rfl⟩ := Prod.mk.inj hs
    · exact .inr ⟨rfl, rfl⟩
    · exact .inl ⟨rfl, _, rfl, fun h => (by cases h)⟩
  | insertUser =>
    simp only [step] at hs
    split at hs <;> obtain ⟨rfl, rfl⟩ := Prod.mk.inj hs
    · exact .inl ⟨rfl, _, rfl, fun h => (by cases h)⟩
    · rename_i hfree
      refine .inr ⟨⟨i.uuid, identity.email, identity.displayName, true⟩,
        Option.not_isSome_iff_eq_none.mp hfree, rfl, rfl, ?_⟩
      cases i.roleFirst
      · exact .inr rfl
      · exact .inl rfl
  | insertIdentity user roleInserted =>
    simp only [step] at hs
    split at hs
    · obtain ⟨rfl, rfl⟩ := Prod.mk.inj hs
      exact .inr (.inl ⟨‹_›, rfl, rfl⟩)
    · rename_i hfree
      have hfree := Option.not_isSome_iff_eq_none.mp hfree
      split at hs
      · rcases conclude_cases hs with ⟨rfl, rfl⟩ | ⟨rfl, current, hcurrent, rfl⟩
        · exact .inl ⟨rfl, _, rfl, fun h => (by cases h)⟩
        · exact .inr (.inr ⟨hfree, rfl, .inr ⟨current, hcurrent, rfl⟩⟩)
      · obtain ⟨rfl, rfl⟩ := Prod.mk.inj hs
        exact .inr (.inr ⟨hfree, rfl, .inl ⟨Bool.eq_false_iff.mpr ‹_›, rfl⟩⟩)
  | insertRole user identityInserted =>
    simp only [step] at hs
    split at hs
    · obtain ⟨rfl, rfl⟩ := Prod.mk.inj hs
      exact .inl ⟨rfl, _, rfl, fun h => (by cases h)⟩
    · split at hs
      · rcases conclude_cases hs with ⟨rfl, rfl⟩ | ⟨rfl, current, hcurrent, rfl⟩
        · exact .inl ⟨rfl, _, rfl, fun h => (by cases h)⟩
        · exact .inr ⟨rfl, .inr ⟨‹_›, current, hcurrent, rfl⟩⟩
      · obtain ⟨rfl, rfl⟩ := Prod.mk.inj hs
        exact .inr ⟨rfl, .inl ⟨Bool.eq_false_iff.mpr ‹_›, rfl⟩⟩
  | assigned =>
    obtain ⟨rfl, rfl⟩ := Prod.mk.inj hs
    exact .inr ⟨rfl, rfl⟩
  | updateProfile account updates =>
    simp only [step] at hs
    rcases conclude_cases hs with ⟨rfl, rfl⟩ | ⟨rfl, user, huser, rfl⟩
    · exact .inl ⟨rfl, _, rfl, fun h => (by cases h)⟩
    · exact .inr ⟨rfl, user, huser, rfl⟩
  | commit change user =>
    obtain ⟨rfl, rfl⟩ := Prod.mk.inj hs
    exact .inr ⟨rfl, rfl⟩

end ResolveCurrentUser

/-- What holds of the tables and the record in every state, from the tables `t₀` on. -/
structure Provisioned (t₀ : AccountTables) (w : AccountWorld) : Prop where
  consistent : w.tables.Consistent
  sole : ∀ id, (w.tables.users.find? id).isSome → t₀.users.find? id = none →
    ∃ r ∈ w.tables.identities.rows, r.userId = id ∧ ∀ r' ∈ w.tables.identities.rows, r'.userId = id → r' = r

/-- What no step of another process undoes. -/
structure AccountWorld.Grows (p : ℕ) (w w' : AccountWorld) : Prop where
  identities : ∀ key r, w.tables.identities.find? key = some r → w'.tables.identities.find? key = some r
  identity : ∀ key, w.tables.identities.find? key = none → (w'.tables.identities.find? key).isSome →
    w.locks.owner (.identity key) = some p
  users : ∀ id, (w.tables.users.find? id).isSome → (w'.tables.users.find? id).isSome
  user : ∀ id, w.tables.users.find? id = none → (w'.tables.users.find? id).isSome →
    w.locks.owner (.user id) = some p
  locks : ∀ q key, q ≠ p → w.locks.owner key = some q → w'.locks.owner key = some q

def Caller.Knows (p : ℕ) (w : AccountWorld) : Caller → Prop
  | .idle => True
  | .resolve identity pc => ResolveCurrentUser.Knows w p identity pc

/-- The contract of first login from the tables `t₀`. -/
def firstLogin (t₀ : AccountTables) : Contract ℕ AccountWorld Caller where
  inv := Provisioned t₀
  assert := fun p l w => l.Knows p w
  guarantee := AccountWorld.Grows

section Stability
variable {w w' : AccountWorld} {p q : ℕ} {key : String × String} {id : UUID} {identity : ValidatedIdentity}

/-- A step that leaves the identities and who there is. -/
theorem AccountWorld.Grows.of_who (hidentities : w'.tables.identities = w.tables.identities)
    (husers : ∀ k, (w'.tables.users.find? k).isSome = (w.tables.users.find? k).isSome)
    (hl : ∀ q key, q ≠ p → w.locks.owner key = some q → w'.locks.owner key = some q) : w.Grows p w' where
  identities := fun key r hr => hidentities ▸ hr
  identity := fun key hnone hsome => by
    rw [hidentities, hnone] at hsome
    contradiction
  users := fun id hid => (husers id).symm ▸ hid
  user := fun id hnone hsome => by
    rw [husers, hnone] at hsome
    contradiction
  locks := hl

theorem AccountWorld.Grows.of_tables (ht : w'.tables = w.tables)
    (hl : ∀ q key, q ≠ p → w.locks.owner key = some q → w'.locks.owner key = some q) : w.Grows p w' :=
  .of_who (congrArg _ ht) (fun _ => by rw [ht]) hl

theorem AccountWorld.Grows.refl (p : ℕ) (w : AccountWorld) : w.Grows p w := .of_tables rfl fun _ _ _ => id

theorem AccountTables.Maps.grows (h : w.tables.Maps key id) (hg : w.Grows p w') : w'.tables.Maps key id := by
  obtain ⟨r, hr, hid⟩ := h
  exact ⟨r, hg.identities key r hr, hid⟩

theorem AccountWorld.Fresh.grows (h : w.Fresh q id) (hg : w.Grows p w') (hne : q ≠ p) : w'.Fresh q id := by
  refine ⟨?_, hg.locks q _ hne h.2⟩
  by_contra hsome
  have howner := hg.user id h.1 (Option.isSome_iff_ne_none.mpr hsome)
  exact hne (Option.some.inj (h.2.symm.trans howner))

theorem AccountWorld.Unassigned.grows (h : w.Unassigned q key) (hg : w.Grows p w') (hne : q ≠ p) :
    w'.Unassigned q key := by
  refine ⟨?_, hg.locks q _ hne h.2⟩
  by_contra hsome
  have howner := hg.identity key h.1 (Option.isSome_iff_ne_none.mpr hsome)
  exact hne (Option.some.inj (h.2.symm.trans howner))

theorem AccountWorld.Known.grows {account : UserAccount} (h : w.Known key account) (hg : w.Grows p w') :
    w'.Known key account :=
  ⟨h.maps.grows hg, h.active⟩

theorem identities_isSome_grows (h : (w.tables.identities.find? key).isSome) (hg : w.Grows p w') :
    (w'.tables.identities.find? key).isSome := by
  obtain ⟨r, hr⟩ := Option.isSome_iff_exists.mp h
  rw [hg.identities key r hr]
  rfl

/-- What a call knows, no other call takes from it. -/
theorem ResolveCurrentUser.Knows.grows {pc : ResolveCurrentUser.Pc} (h : Knows w q identity pc)
    (hg : w.Grows p w') (hne : q ≠ p) : Knows w' q identity pc := by
  cases pc with
  | find again => exact fun hagain => identities_isSome_grows (h hagain) hg
  | assigned => exact identities_isSome_grows h hg
  | selectRole | insertUser => trivial
  | insertIdentity user roleInserted => exact ⟨h.1.grows hg hne, h.2⟩
  | insertRole user identityInserted =>
    exact ⟨h.1.grows hg hne, h.2.1, fun hinserted => (h.2.2 hinserted).grows hg hne⟩
  | updateProfile account updates => exact AccountWorld.Known.grows h hg
  | commit change user =>
    rcases h with ⟨user, hp⟩ | ⟨account, hs⟩
    · exact .inl ⟨user, hp.change_eq, hp.fresh.grows hg hne, hp.unassigned.grows hg hne, hp.active, hp.returns⟩
    · exact .inr ⟨account, hs.known.grows hg, hs.change_eq, hs.returns⟩

end Stability

section Commits
variable {t t' t₀ : AccountTables} {w w' : AccountWorld} {p : ℕ} {identity : ValidatedIdentity} {user : User}
  {current : CurrentUser} {id : UUID}

theorem AccountChange.provision_apply (h : (ResolveCurrentUser.provision identity user).apply t = some t') :
    ∃ users identities userRoles, t.users.insert user = some users ∧
      t.identities.insert ⟨identity.issuer, identity.subject, user.id⟩ = some identities ∧
      t.userRoles.insert ⟨user.id, memberRole⟩ = some userRoles ∧
      t' = { t with users, identities, userRoles } := by
  obtain ⟨users, hu, h⟩ := Option.bind_eq_some_iff.mp h
  obtain ⟨identities, hi, h⟩ := Option.bind_eq_some_iff.mp h
  obtain ⟨userRoles, hr, h⟩ := Option.bind_eq_some_iff.mp h
  exact ⟨users, identities, userRoles, hu, hi, hr, (Option.some.inj h).symm⟩

theorem Table.insert_isSome_of_find? {α κ : Type} [Keyed α κ] [DecidableEq κ] {t t' : Table α} {r : α} {k : κ}
    (h : t.insert r = some t') (hk : (t.find? k).isSome) : (t'.find? k).isSome := by
  obtain ⟨s, hs⟩ := Option.isSome_iff_exists.mp hk
  rw [Table.find?_insert_of_some h hs]
  rfl

/-- Changing users in place leaves who there is. -/
theorem modify_users_isSome {f : User → User} (hf : ∀ u, (f u).id = u.id) (id : UUID) (users : Table User) (k : UUID) :
    ((users.modify id f).find? k).isSome = (users.find? k).isSome := by
  rw [Table.find?_modify hf]
  split
  · rename_i hk
    rw [hk, Option.isSome_map]
  · rfl

/-- The commit of a new account. -/
theorem Provisioned.provision (h : Provisioned t₀ w) {change : AccountChange}
    (hp : ResolveCurrentUser.Provisions w p identity change user current)
    (ha : w.apply p (.commit change) = some w') : Provisioned t₀ w' ∧ w.Grows p w' := by
  obtain ⟨tables, ht, rfl⟩ := Option.map_eq_some_iff.mp ha
  rw [hp.change_eq] at ht
  obtain ⟨users, identities, userRoles, hu, hi, hr, rfl⟩ := AccountChange.provision_apply ht
  have hfind (k : UUID) : users.find? k = if k = user.id then some user else w.tables.users.find? k :=
    Table.find?_insert hu
  have hnew : (users.find? user.id).isSome := by
    rw [hfind, if_pos rfl]
    rfl
  have hgrows : w.Grows p ⟨{ w.tables with users, identities, userRoles }, w.locks.release p⟩ := {
    identities := fun key r hr => Table.find?_insert_of_some hi hr
    identity := fun key hnone hsome => by
      rw [Table.find?_insert hi, hnone] at hsome
      split at hsome
      · rename_i hkey
        exact hkey ▸ hp.unassigned.2
      · contradiction
    users := fun k hk => Table.insert_isSome_of_find? hu hk
    user := fun k hnone hsome => by
      rw [hfind, hnone] at hsome
      split at hsome
      · rename_i hkey
        exact hkey ▸ hp.fresh.2
      · contradiction
    locks := fun q key hne howner => LockTable.owner_release_of_ne hne howner }
  refine ⟨⟨?_, ?_⟩, hgrows⟩
  · refine ⟨fun r hmem => ?_, fun r hmem => ?_, h.consistent.member⟩
    · rw [Table.rows_insert hi] at hmem
      rcases List.mem_cons.mp hmem with rfl | hold
      · exact hnew
      · exact hgrows.users _ (h.consistent.identities r hold)
    · rw [Table.rows_insert hr] at hmem
      rcases List.mem_cons.mp hmem with rfl | hold
      · exact hnew
      · exact hgrows.users _ (h.consistent.userRoles r hold)
  · -- The new user has the new identity alone: no identity refers to a user that did not exist.
    intro id hid hinitial
    simp only [Table.rows_insert hi, List.mem_cons]
    by_cases hsame : id = user.id
    · subst hsame
      refine ⟨_, .inl rfl, rfl, fun r' hr' hid' => ?_⟩
      rcases hr' with rfl | hold
      · rfl
      · have hexists := h.consistent.identities r' hold
        rw [hid', hp.fresh.1] at hexists
        contradiction
    · have hold : (w.tables.users.find? id).isSome := by
        rw [hfind, if_neg hsame] at hid
        exact hid
      obtain ⟨r, hr, hrid, honly⟩ := h.sole id hold hinitial
      refine ⟨r, .inr hr, hrid, fun r' hr' hid' => ?_⟩
      rcases hr' with rfl | hr'
      · exact absurd hid'.symm hsame
      · exact honly r' hr' hid'

/-- A step that leaves the identities and who there is. -/
theorem Provisioned.keep (h : Provisioned t₀ w)
    (hidentities : w'.tables.identities = w.tables.identities)
    (hconsistent : w'.tables.Consistent)
    (husers : ∀ k, (w'.tables.users.find? k).isSome = (w.tables.users.find? k).isSome) :
    Provisioned t₀ w' where
  consistent := hconsistent
  sole := fun id hid hinitial => by
    rw [hidentities]
    exact h.sole id (husers id ▸ hid) hinitial

end Commits

section Steps
variable {t t₀ : AccountTables} {w w' : AccountWorld} {p : ℕ} {identity : ValidatedIdentity} {key : String × String}
  {account : UserAccount} {e : AccountEffect} {k : AccountKey}

theorem findByIdentity_maps (h : t.findByIdentity key = some account) : t.Maps key account.id := by
  obtain ⟨r, hr, h⟩ := Option.bind_eq_some_iff.mp h
  obtain ⟨user, huser, h⟩ := Option.bind_eq_some_iff.mp h
  obtain rfl := Option.some.inj h
  exact ⟨r, hr, (Table.key_of_find? huser).symm⟩

/-- An assigned identity is found, because no user is deleted. -/
theorem findByIdentity_ne_none (hc : t.Consistent) (h : (t.identities.find? key).isSome) :
    t.findByIdentity key ≠ none := by
  obtain ⟨r, hr⟩ := Option.isSome_iff_exists.mp h
  obtain ⟨user, huser⟩ := Option.isSome_iff_exists.mp (hc.identities r (Table.mem_of_find? hr))
  simp only [AccountTables.findByIdentity, hr, huser, Option.bind_eq_bind, Option.bind_some]
  intro he
  cases he

theorem Provisioned.release (h : Provisioned t₀ w) :
    Provisioned t₀ { w with locks := w.locks.release p } ∧ w.Grows p { w with locks := w.locks.release p } :=
  ⟨h.keep rfl h.consistent fun _ => rfl, .of_tables rfl fun _ _ hne howner => LockTable.owner_release_of_ne hne howner⟩

theorem Provisioned.lock (h : Provisioned t₀ w) (ha : w.apply p (.lock k) = some w') :
    Provisioned t₀ w' ∧ w.Grows p w' ∧ w'.tables = w.tables ∧
      w'.locks.owner k = some p ∧ ∀ q k', w.locks.owner k' = some q → w'.locks.owner k' = some q := by
  obtain ⟨locks, hl, rfl⟩ := Option.map_eq_some_iff.mp ha
  have hg : w.Grows p { w with locks } :=
    .of_tables rfl fun _ _ _ howner => LockTable.owner_acquire_of_owner hl howner
  exact ⟨h.keep rfl h.consistent fun _ => rfl, hg, rfl, LockTable.owner_acquire hl,
    fun _ _ howner => LockTable.owner_acquire_of_owner hl howner⟩

/-- The commit for an account that was read. -/
theorem Provisioned.synchronize {change : AccountChange} {current : CurrentUser}
    (h : Provisioned t₀ w) (hs : ResolveCurrentUser.Synchronizes w identity change account current)
    (ha : w.apply p (.commit change) = some w') : Provisioned t₀ w' ∧ w.Grows p w' := by
  obtain ⟨tables, ht, rfl⟩ := Option.map_eq_some_iff.mp ha
  have htables : tables.identities = w.tables.identities ∧ tables.roles = w.tables.roles ∧
      tables.userRoles = w.tables.userRoles ∧
      ∀ k, (tables.users.find? k).isSome = (w.tables.users.find? k).isSome := by
    rcases hs.change_eq with rfl | ⟨updates, rfl⟩
    · obtain rfl := Option.some.inj ht
      exact ⟨rfl, rfl, rfl, fun _ => rfl⟩
    · obtain rfl := Option.some.inj ht
      exact ⟨rfl, rfl, rfl, modify_users_isSome (fun u : User => (rfl : (u.update updates).id = u.id)) _ _⟩
  obtain ⟨hidentities, hroles, huserRoles, husers⟩ := htables
  have hconsistent : tables.Consistent := by
    refine ⟨fun r hr => ?_, fun r hr => ?_, hroles ▸ h.consistent.member⟩
    · rw [husers]
      exact h.consistent.identities r (hidentities ▸ hr)
    · rw [husers]
      exact h.consistent.userRoles r (huserRoles ▸ hr)
  refine ⟨h.keep hidentities hconsistent husers, .of_who hidentities husers fun _ _ hne howner => ?_⟩
  exact LockTable.owner_release_of_ne hne howner

namespace ResolveCurrentUser
variable {pc : Pc} {i : Input} {o : Outcome}

theorem updated_returns {updates : UserProfileUpdates} {user : CurrentUser}
    (h : Returns (account.updated updates) user) : Returns account user := ⟨h.id, h.roles⟩

/-- One statement of a call keeps what holds, disturbs no other call, and leaves its own knowing what it must. -/
theorem step_sound (hs : step identity w.tables i pc = (e, o)) (ha : w.apply p e = some w')
    (h : Provisioned t₀ w) (hk : Knows w p identity pc) :
    Provisioned t₀ w' ∧ w.Grows p w' ∧ (o.caller identity).Knows p w' := by
  rcases step_cases hs with ⟨rfl, err, rfl, -⟩ | hstep
  · obtain rfl := Option.some.inj ha
    exact ⟨h.release.1, h.release.2, trivial⟩
  cases pc with
  | find again =>
    rcases hstep with ⟨rfl, rfl⟩ | ⟨account, haccount, hactive, rfl, hnext⟩
    · obtain rfl := Option.some.inj ha
      exact ⟨h, .refl p w, trivial⟩
    · obtain rfl := Option.some.inj ha
      have hknown : w.Known identity.key account := ⟨findByIdentity_maps haccount, hactive⟩
      refine ⟨h, .refl p w, ?_⟩
      rcases hnext with ⟨updates, rfl⟩ | ⟨user, huser, rfl⟩
      · exact hknown
      · exact .inr ⟨account, hknown, .inl rfl, huser⟩
  | selectRole =>
    obtain ⟨rfl, rfl⟩ := hstep
    obtain rfl := Option.some.inj ha
    exact ⟨h, .refl p w, trivial⟩
  | insertUser =>
    obtain ⟨user, hfree, hactive, rfl, hnext⟩ := hstep
    obtain ⟨h', hg, htables, howner, -⟩ := h.lock ha
    have hfresh : w'.Fresh p user.id := ⟨htables ▸ hfree, howner⟩
    refine ⟨h', hg, ?_⟩
    rcases hnext with rfl | rfl
    · exact ⟨hfresh, hactive, (fun he => by cases he)⟩
    · exact ⟨hfresh, hactive⟩
  | insertIdentity user roleInserted =>
    obtain ⟨hfresh, hactive⟩ := hk
    rcases hstep with ⟨hassigned, rfl, rfl⟩ | ⟨hfree, rfl, hnext⟩
    · obtain rfl := Option.some.inj ha
      exact ⟨h, .refl p w, hassigned⟩
    · obtain ⟨h', hg, htables, howner, hkept⟩ := h.lock ha
      have hfresh' : w'.Fresh p user.id := ⟨htables ▸ hfresh.1, hkept p _ hfresh.2⟩
      have hunassigned : w'.Unassigned p identity.key := ⟨htables ▸ hfree, howner⟩
      refine ⟨h', hg, ?_⟩
      rcases hnext with ⟨-, rfl⟩ | ⟨current, hcurrent, rfl⟩
      · exact ⟨hfresh', hactive, fun _ => hunassigned⟩
      · exact .inl ⟨user, rfl, hfresh', hunassigned, hactive, hcurrent⟩
  | insertRole user identityInserted =>
    obtain ⟨hfresh, hactive, hinserted⟩ := hk
    obtain ⟨rfl, hnext⟩ := hstep
    obtain ⟨h', hg, htables, -, hkept⟩ := h.lock ha
    have hfresh' : w'.Fresh p user.id := ⟨htables ▸ hfresh.1, hkept p _ hfresh.2⟩
    refine ⟨h', hg, ?_⟩
    rcases hnext with ⟨-, rfl⟩ | ⟨hdone, current, hcurrent, rfl⟩
    · exact ⟨hfresh', hactive⟩
    · have hunassigned : w'.Unassigned p identity.key :=
        ⟨htables ▸ (hinserted hdone).1, hkept p _ (hinserted hdone).2⟩
      exact .inl ⟨user, rfl, hfresh', hunassigned, hactive, hcurrent⟩
  | assigned =>
    obtain ⟨rfl, rfl⟩ := hstep
    obtain rfl := Option.some.inj ha
    exact ⟨h.release.1, h.release.2, fun _ => hk⟩
  | updateProfile account updates =>
    obtain ⟨rfl, user, huser, rfl⟩ := hstep
    obtain ⟨h', hg, -⟩ := h.lock ha
    refine ⟨h', hg, .inr ⟨account, AccountWorld.Known.grows hk hg, .inr ⟨updates, rfl⟩, ?_⟩⟩
    exact updated_returns huser
  | commit change user =>
    obtain ⟨rfl, rfl⟩ := hstep
    rcases hk with ⟨user, hp⟩ | ⟨account, hs⟩
    · obtain ⟨h', hg⟩ := h.provision hp ha
      exact ⟨h', hg, trivial⟩
    · obtain ⟨h', hg⟩ := h.synchronize hs ha
      exact ⟨h', hg, trivial⟩

end ResolveCurrentUser
end Steps

section Established
variable {t t' t₀ : AccountTables} {w w' : AccountWorld} {p : ℕ}

/-- Administration touches no identity and keeps every user. -/
theorem administer_keeps {ev : AdministrationEvent} (h : t.administer ev = some t') (hc : t.Consistent) :
    t'.identities = t.identities ∧ t'.Consistent ∧ ∀ k, (t'.users.find? k).isSome = (t.users.find? k).isSome := by
  have hmodify {f : User → User} (hf : ∀ u, (f u).id = u.id) (id : UUID) :
      ({ t with users := t.users.modify id f } : AccountTables).Consistent := by
    refine ⟨fun r hr => ?_, fun r hr => ?_, hc.member⟩
    · rw [modify_users_isSome hf]
      exact hc.identities r hr
    · rw [modify_users_isSome hf]
      exact hc.userRoles r hr
  cases ev with
  | setActive id active =>
    obtain rfl := Option.some.inj h
    exact ⟨rfl, hmodify (f := fun u => { u with isActive := active }) (fun _ => rfl) id,
      modify_users_isSome (f := fun u => { u with isActive := active }) (fun _ => rfl) _ _⟩
  | editProfile id email displayName =>
    obtain rfl := Option.some.inj h
    exact ⟨rfl, hmodify (f := fun u => { u with email, displayName }) (fun _ => rfl) id,
      modify_users_isSome (f := fun u => { u with email, displayName }) (fun _ => rfl) _ _⟩
  | grantRole id role =>
    obtain ⟨⟨hid, -⟩, h⟩ := Option.ite_none_right_eq_some.mp h
    obtain ⟨userRoles, hr, rfl⟩ := Option.map_eq_some_iff.mp h
    refine ⟨rfl, ⟨hc.identities, fun r hmem => ?_, hc.member⟩, fun _ => rfl⟩
    rw [Table.rows_insert hr] at hmem
    rcases List.mem_cons.mp hmem with rfl | hold
    · exact hid
    · exact hc.userRoles r hold
  | revokeRole id role =>
    obtain rfl := Option.some.inj h
    exact ⟨rfl, ⟨hc.identities, fun r hmem => hc.userRoles r (List.mem_of_mem_filter hmem), hc.member⟩,
      fun _ => rfl⟩

theorem Provisioned.ending (h : Provisioned t₀ w') (hg : w.Grows p w') :
    Provisioned t₀ { w' with locks := w'.locks.release p } ∧
      w.Grows p { w' with locks := w'.locks.release p } :=
  ⟨h.release.1, hg.identities, hg.identity, hg.users, hg.user,
    fun q key hne howner => LockTable.owner_release_of_ne hne (hg.locks q key hne howner)⟩

theorem firstLogin_proof (t₀ : AccountTables) :
    (firstLogin t₀).Proof .trivial accounts fun _ _ => True where
  act := by
    intro p a w l w' l' _ ha _ _ _ h hk
    cases a with
    | start identity =>
      cases l with
      | idle =>
        obtain ⟨rfl, rfl⟩ := Prod.mk.inj (Option.some.inj ha)
        exact ⟨h, fun hagain => absurd hagain Bool.false_ne_true, AccountWorld.Grows.refl p w⟩
      | resolve => contradiction
    | run i =>
      cases l with
      | idle => contradiction
      | resolve identity pc =>
        obtain ⟨w₁, hw, h'⟩ := Option.map_eq_some_iff.mp ha
        obtain ⟨rfl, rfl⟩ := Prod.mk.inj h'
        obtain ⟨hinv, hg, hk'⟩ := ResolveCurrentUser.step_sound rfl hw h hk
        exact ⟨hinv, hk', hg⟩
    | lost i =>
      cases l with
      | idle => contradiction
      | resolve identity pc =>
        obtain ⟨w₁, hw, h'⟩ := Option.map_eq_some_iff.mp ha
        obtain ⟨rfl, rfl⟩ := Prod.mk.inj h'
        obtain ⟨hinv, hg, -⟩ := ResolveCurrentUser.step_sound rfl hw h hk
        exact ⟨(hinv.ending hg).1, trivial, (hinv.ending hg).2⟩
    | abort =>
      obtain ⟨rfl, rfl⟩ := Prod.mk.inj (Option.some.inj (by cases l <;> exact ha))
      exact ⟨h.release.1, trivial, h.release.2⟩
  stable := by
    intro p q l w w' hne _ _ _ hg _ hk
    cases l with
    | idle => trivial
    | resolve identity pc => exact ResolveCurrentUser.Knows.grows hk hg (Ne.symm hne)
  env := by
    intro ev w w' _ he _ h
    obtain ⟨tables, ht, rfl⟩ := Option.map_eq_some_iff.mp he
    obtain ⟨hidentities, hconsistent, husers⟩ := administer_keeps ht h.consistent
    have hg (p : ℕ) : w.Grows p { w with tables } := .of_who hidentities husers fun _ _ _ => id
    refine ⟨h.keep hidentities hconsistent husers, fun q l _ hk => ?_⟩
    cases l with
    | idle => trivial
    -- What others commit is a step of no call, so of one other than `q`.
    | resolve identity pc => exact ResolveCurrentUser.Knows.grows hk (hg (q + 1)) (Nat.succ_ne_self q).symm

theorem firstLogin_established (hc : t₀.Consistent) :
    (firstLogin t₀).Established accounts (fun _ _ => True) t₀.start := by
  have hinit : Provisioned t₀ ⟨t₀, .free⟩ := by
    refine ⟨hc, fun id hid hinitial => ?_⟩
    have hid : (t₀.users.find? id).isSome := hid
    rw [hinitial] at hid
    contradiction
  exact ((firstLogin_proof t₀).established Contract.trivial_established
    (show (firstLogin t₀).Holds t₀.start from ⟨hinit, fun _ => trivial⟩)).left

end Established

end Mic3
