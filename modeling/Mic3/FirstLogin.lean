import Mic3.Resolving

/-! First login provisions exactly one account, however many calls race for an identity. -/
namespace Mic3
open Relational Interleaving

section Runs
variable {t₀ : AccountTables} {c c' : Config ℕ AccountWorld Caller} {p : ℕ}

theorem AccountWorld.apply_tables {w w' : AccountWorld} {e : AccountEffect} (ha : w.apply p e = some w') :
    w'.tables = w.tables ∨ ∃ change, e = .commit change ∧ change.apply w.tables = some w'.tables := by
  cases e with
  | read =>
    obtain rfl := Option.some.inj ha
    exact .inl rfl
  | lock key =>
    obtain ⟨locks, -, rfl⟩ := Option.map_eq_some_iff.mp ha
    exact .inl rfl
  | commit change =>
    obtain ⟨tables, ht, rfl⟩ := Option.map_eq_some_iff.mp ha
    exact .inr ⟨change, rfl, ht⟩
  | rollback =>
    obtain rfl := Option.some.inj ha
    exact .inl rfl

/-- Only a commit statement commits. -/
theorem ResolveCurrentUser.step_commits {identity : ValidatedIdentity} {t : AccountTables} {i : Input} {pc : Pc}
    {change : AccountChange} (h : (step identity t i pc).1 = .commit change) : ∃ user, pc = .commit change user := by
  rcases step_cases (Prod.ext h rfl) with ⟨he, -⟩ | hstep
  · contradiction
  cases pc with
  | find again => rcases hstep with ⟨he, -⟩ | ⟨account, -, -, he, -⟩ <;> contradiction
  | selectRole | assigned => cases hstep.1
  | insertUser =>
    obtain ⟨user, -, -, he, -⟩ := hstep
    contradiction
  | insertIdentity user roleInserted => rcases hstep with ⟨-, he, -⟩ | ⟨-, he, -⟩ <;> contradiction
  | insertRole user identityInserted => cases hstep.1
  | updateProfile account updates => cases hstep.1
  | commit change' user =>
    obtain rfl := AccountEffect.commit.inj hstep.1
    exact ⟨user, rfl⟩

/-- What one action of a call commits: nothing, or the change of its commit statement. -/
theorem callerAct_tables {a : CallerAction} {w w' : AccountWorld} {l l' : Caller}
    (ha : callerAct p a w l = some (w', l')) : w'.tables = w.tables ∨
      ∃ identity change user, l = .resolve identity (.commit change user) ∧
        change.apply w.tables = some w'.tables := by
  have hstep {identity : ValidatedIdentity} {pc : ResolveCurrentUser.Pc} {i : ResolveCurrentUser.Input}
      {w' : AccountWorld} (h : w.apply p (ResolveCurrentUser.step identity w.tables i pc).1 = some w') :
      w'.tables = w.tables ∨ ∃ change user, pc = .commit change user ∧
        change.apply w.tables = some w'.tables := by
    rcases AccountWorld.apply_tables h with hsame | ⟨change, he, hchange⟩
    · exact .inl hsame
    · obtain ⟨user, hpc⟩ := ResolveCurrentUser.step_commits he
      exact .inr ⟨change, user, hpc, hchange⟩
  cases a with
  | start identity =>
    cases l with
    | idle =>
      obtain ⟨rfl, -⟩ := Prod.mk.inj (Option.some.inj ha)
      exact .inl rfl
    | resolve => contradiction
  | run i | lost i =>
    cases l with
    | idle => contradiction
    | resolve identity pc =>
      obtain ⟨w₁, hw, h'⟩ := Option.map_eq_some_iff.mp ha
      obtain ⟨rfl, -⟩ := Prod.mk.inj h'
      rcases hstep hw with hsame | ⟨change, user, rfl, hchange⟩
      · exact .inl hsame
      · exact .inr ⟨identity, change, user, rfl, hchange⟩
  | abort =>
    obtain ⟨rfl, -⟩ := Prod.mk.inj (Option.some.inj (by cases l <;> exact ha))
    exact .inl rfl

theorem firstLogin_knows (hc : t₀.Consistent) (h : Reachable accounts (fun _ _ => True) t₀.start c)
    {identity : ValidatedIdentity} {pc : ResolveCurrentUser.Pc} (hp : c.procs p = .resolve identity pc) :
    ResolveCurrentUser.Knows c.shared p identity pc := by
  have hk := ((firstLogin_established hc).holds c h).2 p
  rw [hp] at hk
  exact hk

theorem rolesOf_new {t : AccountTables} (ht : t.Consistent) {id : UUID} (hid : t.users.find? id = none) :
    t.rolesOf id = [] := by
  have hnone : t.userRoles.rows.filter (fun r => r.userId = id) = [] := by
    refine List.filter_eq_nil_iff.mpr fun r hr hrid => ?_
    have hexists := ht.userRoles r hr
    rw [of_decide_eq_true hrid, hid] at hexists
    contradiction
  rw [AccountTables.rolesOf, hnone, List.map_nil]

/-- A step of a call changes the roles of no user there is, and a user that it creates is a member only. -/
theorem roles_kept (hc : t₀.Consistent) (h : Reachable accounts (fun _ _ => True) t₀.start c)
    {a : CallerAction} (hs : accounts.step c (.act p a) = some c') (id : UUID) :
    c'.shared.tables.rolesOf id =
      if c.shared.tables.users.find? id = none ∧ (c'.shared.tables.users.find? id).isSome then [memberRole]
      else c.shared.tables.rolesOf id := by
  obtain ⟨⟨⟨t, locks⟩, l'⟩, ha, rfl⟩ := Option.map_eq_some_iff.mp hs
  change t.rolesOf id = if c.shared.tables.users.find? id = none ∧ (t.users.find? id).isSome then [memberRole]
    else c.shared.tables.rolesOf id
  have hinv : Provisioned t₀ c.shared := ((firstLogin_established hc).holds c h).1
  have hsame (heq : t.users.find? id = none ∨ (c.shared.tables.users.find? id).isSome)
      (hroles : t.rolesOf id = c.shared.tables.rolesOf id) : t.rolesOf id =
        if c.shared.tables.users.find? id = none ∧ (t.users.find? id).isSome then [memberRole]
        else c.shared.tables.rolesOf id := by
    rw [if_neg, hroles]
    rintro ⟨hnone, hsome⟩
    rcases heq with heq | heq
    · simp [heq] at hsome
    · simp [hnone] at heq
  have htables : t = c.shared.tables ∨ ∃ identity change user,
      c.procs p = .resolve identity (.commit change user) ∧ change.apply c.shared.tables = some t :=
    callerAct_tables ha
  rcases htables with heq | ⟨identity, change, current, hl, hchange⟩
  · refine hsame ?_ (by rw [heq])
    rw [heq]
    cases c.shared.tables.users.find? id
    · exact .inl rfl
    · exact .inr rfl
  · rcases firstLogin_knows hc h hl with ⟨user, hp⟩ | ⟨account, hs⟩
    · rw [hp.change_eq] at hchange
      obtain ⟨users, identities, userRoles, hu, -, hr, rfl⟩ := AccountChange.provision_apply hchange
      have hfind (k : UUID) : users.find? k = if k = user.id then some user else c.shared.tables.users.find? k :=
        Table.find?_insert hu
      have hadded : userRoles.rows = ⟨user.id, memberRole⟩ :: c.shared.tables.userRoles.rows := Table.rows_insert hr
      by_cases hid : id = user.id
      · -- The user is new: no role refers to it but the one that is inserted with it.
        subst hid
        have hnone : (c.shared.tables.userRoles.rows.filter fun r => r.userId = user.id).map UserRole.roleName = [] :=
          rolesOf_new hinv.consistent hp.fresh.1
        have hsome : (users.find? user.id).isSome := by
          rw [hfind, if_pos rfl]
          rfl
        rw [if_pos ⟨hp.fresh.1, hsome⟩]
        simp only [AccountTables.rolesOf, hadded, List.filter_cons, decide_true, if_true, List.map_cons, hnone]
      · refine hsame ?_ ?_
        · simp only [hfind, if_neg hid]
          cases c.shared.tables.users.find? id
          · exact .inl rfl
          · exact .inr rfl
        · have hother : user.id ≠ id := Ne.symm hid
          simp only [AccountTables.rolesOf, hadded, List.filter_cons, decide_eq_true_eq, if_neg hother]
    · rcases hs.change_eq with rfl | ⟨updates, rfl⟩
      · obtain heq : c.shared.tables = t := Option.some.inj hchange
        rw [← heq] at hsame ⊢
        refine hsame ?_ rfl
        cases c.shared.tables.users.find? id
        · exact .inl rfl
        · exact .inr rfl
      · obtain rfl := Option.some.inj hchange
        refine hsame ?_ rfl
        have husers := modify_users_isSome (fun u : User => (rfl : (u.update updates).id = u.id)) account.id
          c.shared.tables.users id
        cases hold : c.shared.tables.users.find? id
        · exact .inl (Option.not_isSome_iff_eq_none.mp (by simp [husers, hold]))
        · exact .inr rfl

/-- The steps in which the call that `p` is making goes on. -/
def Continuing (p : ℕ) (_ : AccountWorld) (l : Label ℕ CallerAction AdministrationEvent) : Prop :=
  ∀ a, l = .act p a → ∃ i, a = .run i

/-- The call that `p` is making read this account by the lookup of its identity. -/
def ReadInCall (t₀ : AccountTables) (p : ℕ) (identity : ValidatedIdentity) (account : UserAccount)
    (c : Config ℕ AccountWorld Caller) : Prop :=
  ∃ c₁ again, Reachable accounts (fun _ _ => True) t₀.start c₁ ∧ c₁.procs p = .resolve identity (.find again) ∧
    c₁.shared.tables.findByIdentity identity.key = some account ∧ Reachable accounts (Continuing p) c₁ c

namespace ResolveCurrentUser

/-- What an account that a call returns or changes has to do with the one that the call read. -/
def Seen (t₀ : AccountTables) (p : ℕ) (identity : ValidatedIdentity) (c : Config ℕ AccountWorld Caller) : Pc → Prop
  | .updateProfile account _ => account.isActive = true ∧ ReadInCall t₀ p identity account c
  | .commit change current => (∃ user, change = provision identity user ∧ Returns (user.account memberRole) current) ∨
      ∃ account, account.isActive = true ∧ ReadInCall t₀ p identity account c ∧ Returns account current ∧
        (change = .nothing ∨ ∃ updates, change = .update account.id updates)
  | _ => True

end ResolveCurrentUser

theorem ReadInCall.step {identity : ValidatedIdentity} {account : UserAccount}
    {l : Label ℕ CallerAction AdministrationEvent} (h : ReadInCall t₀ p identity account c)
    (hl : Continuing p c.shared l) (hs : accounts.step c l = some c') : ReadInCall t₀ p identity account c' := by
  obtain ⟨c₁, again, hc₁, hfind, haccount, hrest⟩ := h
  exact ⟨c₁, again, hc₁, hfind, haccount, .step hrest hl hs⟩

theorem ResolveCurrentUser.Seen.step {identity : ValidatedIdentity} {pc : Pc}
    {l : Label ℕ CallerAction AdministrationEvent} (h : Seen t₀ p identity c pc)
    (hl : Continuing p c.shared l) (hs : accounts.step c l = some c') : Seen t₀ p identity c' pc := by
  cases pc with
  | updateProfile account updates => exact ⟨h.1, ReadInCall.step h.2 hl hs⟩
  | commit change current =>
    rcases h with hnew | ⟨account, hactive, hread, hrest⟩
    · exact .inl hnew
    · exact .inr ⟨account, hactive, ReadInCall.step hread hl hs, hrest⟩
  | find | selectRole | insertUser | insertIdentity | insertRole | assigned => trivial

/-- One statement of the call: an account that it goes on with is the one it has just read, or had read. -/
theorem ResolveCurrentUser.seen_run {identity : ValidatedIdentity} {pc pc' : Pc} {i : Input} {e : AccountEffect}
    (hr : Reachable accounts (fun _ _ => True) t₀.start c) (hp : c.procs p = .resolve identity pc)
    (hstep : step identity c.shared.tables i pc = (e, .running pc')) (h : Seen t₀ p identity c pc)
    (hs : accounts.step c (.act p (.run i)) = some c') : Seen t₀ p identity c' pc' := by
  have hgoes : Continuing p c.shared (.act p (.run i)) := by
    rintro a ⟨⟩
    exact ⟨i, rfl⟩
  rcases step_cases hstep with ⟨-, err, herr, -⟩ | hcase
  · contradiction
  cases pc with
  | find again =>
    rcases hcase with ⟨-, hnext⟩ | ⟨account, haccount, hactive, -, hnext⟩
    · obtain rfl := Outcome.running.inj hnext
      trivial
    · have hread : ReadInCall t₀ p identity account c' :=
        ReadInCall.step ⟨c, again, hr, hp, haccount, .refl⟩ hgoes hs
      rcases hnext with ⟨updates, hnext⟩ | ⟨current, hcurrent, hnext⟩
      · obtain rfl := Outcome.running.inj hnext
        exact ⟨hactive, hread⟩
      · obtain rfl := Outcome.running.inj hnext
        exact .inr ⟨account, hactive, hread, hcurrent, .inl rfl⟩
  | selectRole | assigned =>
    obtain rfl := Outcome.running.inj hcase.2
    trivial
  | insertUser =>
    obtain ⟨user, -, -, -, hnext | hnext⟩ := hcase
    all_goals
      obtain rfl := Outcome.running.inj hnext
      trivial
  | insertIdentity user roleInserted =>
    rcases hcase with ⟨-, -, hnext⟩ | ⟨-, -, ⟨-, hnext⟩ | ⟨current, hcurrent, hnext⟩⟩
    · obtain rfl := Outcome.running.inj hnext
      trivial
    · obtain rfl := Outcome.running.inj hnext
      trivial
    · obtain rfl := Outcome.running.inj hnext
      exact .inl ⟨user, rfl, hcurrent⟩
  | insertRole user identityInserted =>
    rcases hcase with ⟨-, ⟨-, hnext⟩ | ⟨-, current, hcurrent, hnext⟩⟩
    · obtain rfl := Outcome.running.inj hnext
      trivial
    · obtain rfl := Outcome.running.inj hnext
      exact .inl ⟨user, rfl, hcurrent⟩
  | updateProfile account updates =>
    obtain ⟨-, current, hcurrent, hnext⟩ := hcase
    obtain rfl := Outcome.running.inj hnext
    exact .inr ⟨account, h.1, ReadInCall.step h.2 hgoes hs, updated_returns hcurrent, .inr ⟨updates, rfl⟩⟩
  | commit change current => cases hcase.2

theorem call_seen (h : Reachable accounts (fun _ _ => True) t₀.start c) {identity : ValidatedIdentity}
    {pc : ResolveCurrentUser.Pc} (hp : c.procs p = .resolve identity pc) :
    ResolveCurrentUser.Seen t₀ p identity c pc := by
  induction h generalizing pc with
  | refl => contradiction
  | @step c c' l hr _ hs ih =>
    cases l with
    | env ev =>
      have hsame : c'.procs = c.procs := by
        obtain ⟨s, -, rfl⟩ := Option.map_eq_some_iff.mp hs
        rfl
      exact (ih (hsame ▸ hp)).step (fun a ha => by cases ha) hs
    | act q a =>
      obtain ⟨⟨w', l'⟩, ha, hc'⟩ := Option.map_eq_some_iff.mp hs
      by_cases hq : p = q
      · subst hq
        have hown : l' = .resolve identity pc := by
          rw [← hc'] at hp
          simpa only [Function.update_self] using hp
        rw [hown] at ha
        cases hl : c.procs p with
        | idle =>
          rw [hl] at ha
          cases a with
          | start identity' =>
            have hnext := (Prod.mk.inj (Option.some.inj ha)).2
            obtain ⟨rfl, rfl⟩ := Caller.resolve.inj hnext
            trivial
          | abort => cases (Prod.mk.inj (Option.some.inj ha)).2
          | run | lost => contradiction
        | resolve identity' pc' =>
          rw [hl] at ha
          cases a with
          | start => contradiction
          | abort => cases (Prod.mk.inj (Option.some.inj ha)).2
          | lost i =>
            obtain ⟨w₁, -, hnext⟩ := Option.map_eq_some_iff.mp ha
            cases (Prod.mk.inj hnext).2
          | run i =>
            obtain ⟨w₁, -, hnext⟩ := Option.map_eq_some_iff.mp ha
            have hcaller : (ResolveCurrentUser.step identity' c.shared.tables i pc').2.caller identity' =
                .resolve identity pc := (Prod.mk.inj hnext).2
            cases ho : (ResolveCurrentUser.step identity' c.shared.tables i pc').2 with
            | running pc₂ =>
              rw [ho] at hcaller
              obtain ⟨rfl, rfl⟩ := Caller.resolve.inj hcaller
              exact ResolveCurrentUser.seen_run hr hl (Prod.ext rfl ho) (ih hl) hs
            | returned user =>
              rw [ho] at hcaller
              contradiction
            | raised err =>
              rw [ho] at hcaller
              contradiction
      · have hsame : c.procs p = .resolve identity pc := by
          rw [← hc'] at hp
          simpa only [Function.update_of_ne hq] using hp
        refine (ih hsame).step (fun a' ha' => ?_) hs
        exact absurd (Label.act.inj ha').1 (Ne.symm hq)

/-- The next statement of `p` returns this user and leads to `c'`. -/
def Resolves (p : ℕ) (identity : ValidatedIdentity) (c c' : Config ℕ AccountWorld Caller) (user : CurrentUser) :
    Prop :=
  ∃ i pc, c.procs p = .resolve identity pc ∧
    (ResolveCurrentUser.step identity c.shared.tables i pc).2 = .returned user ∧
    accounts.step c (.act p (.run i)) = some c'

/-- A statement raises, or the call goes on, or the statement is its commit and returns. -/
theorem ResolveCurrentUser.step_outcome {identity : ValidatedIdentity} {t : AccountTables} {i : Input} {pc : Pc}
    {e : AccountEffect} {o : Outcome} (hs : step identity t i pc = (e, o)) :
    (∃ err, o = .raised err ∧ (err = .identityProvisioning →
      pc = .find true ∧ t.findByIdentity identity.key = none)) ∨
    (∃ pc', o = .running pc') ∨ ∃ change user, pc = .commit change user ∧ o = .returned user := by
  rcases step_cases hs with ⟨-, herr⟩ | hcase
  · exact .inl herr
  · refine .inr ?_
    cases pc with
    | find again =>
      rcases hcase with ⟨-, ho⟩ | ⟨account, -, -, -, ⟨updates, ho⟩ | ⟨current, -, ho⟩⟩ <;> exact .inl ⟨_, ho⟩
    | selectRole | assigned => exact .inl ⟨_, hcase.2⟩
    | insertUser =>
      obtain ⟨user, -, -, -, ho | ho⟩ := hcase <;> exact .inl ⟨_, ho⟩
    | insertIdentity user roleInserted =>
      rcases hcase with ⟨-, -, ho⟩ | ⟨-, -, ⟨-, ho⟩ | ⟨current, -, ho⟩⟩ <;> exact .inl ⟨_, ho⟩
    | insertRole user identityInserted =>
      rcases hcase with ⟨-, ⟨-, ho⟩ | ⟨-, current, -, ho⟩⟩ <;> exact .inl ⟨_, ho⟩
    | updateProfile account updates =>
      obtain ⟨-, current, -, ho⟩ := hcase
      exact .inl ⟨_, ho⟩
    | commit change user => exact .inr ⟨change, user, rfl, hcase.2⟩

/-- A call returns by its commit, which takes effect. -/
theorem Resolves.commits {identity : ValidatedIdentity} {user : CurrentUser} (h : Resolves p identity c c' user) :
    ∃ change, c.procs p = .resolve identity (.commit change user) ∧
      c.shared.apply p (.commit change) = some c'.shared := by
  obtain ⟨i, pc, hp, ho, hs⟩ := h
  have hcommit : ∃ change, pc = .commit change user := by
    rcases ResolveCurrentUser.step_outcome (Prod.eta _).symm with ⟨err, herr, -⟩ | ⟨pc', hrun⟩ | ⟨change, user', hpc, hret⟩
    · cases (ho.symm.trans herr)
    · cases (ho.symm.trans hrun)
    · obtain rfl := ResolveCurrentUser.Outcome.returned.inj (ho.symm.trans hret)
      exact ⟨change, hpc⟩
  obtain ⟨change, rfl⟩ := hcommit
  obtain ⟨⟨w', l'⟩, ha, rfl⟩ := Option.map_eq_some_iff.mp hs
  rw [hp] at ha
  obtain ⟨w₁, hw, hnext⟩ := Option.map_eq_some_iff.mp ha
  obtain ⟨rfl, -⟩ := Prod.mk.inj hnext
  exact ⟨change, hp, hw⟩

theorem reachable_maps {key : String × String} {id : UUID} (hc : t₀.Consistent)
    (h : Reachable accounts (fun _ _ => True) t₀.start c) (hmaps : c.shared.tables.Maps key id)
    (h' : Reachable accounts (fun _ _ => True) c c') : c'.shared.tables.Maps key id := by
  induction h' with
  | refl => exact hmaps
  | @step d d' l hd _ hs ih =>
    cases l with
    | act q a =>
      obtain ⟨⟨w', l'⟩, ha, rfl⟩ := Option.map_eq_some_iff.mp hs
      exact ih.grows ((firstLogin_established hc).guaranteed d q a w' l' (h.trans hd) trivial ha)
    | env ev =>
      obtain ⟨w', he, rfl⟩ := Option.map_eq_some_iff.mp hs
      obtain ⟨tables, ht, rfl⟩ := Option.map_eq_some_iff.mp he
      have hconsistent := ((firstLogin_established hc).holds d (h.trans hd)).1.consistent
      obtain ⟨r, hr, hid⟩ := ih
      refine ⟨r, ?_, hid⟩
      change tables.identities.find? key = some r
      rw [(administer_keeps ht hconsistent).1]
      exact hr

/-- What a call returns is the account that it read, or the one that it has just created. -/
theorem resolved_account (hc : t₀.Consistent) (h : Reachable accounts (fun _ _ => True) t₀.start c)
    {identity : ValidatedIdentity} {user : CurrentUser} (hr : Resolves p identity c c' user) :
    c'.shared.tables.Maps identity.key user.id ∧ ∃ account : UserAccount, account.isActive = true ∧
      user.id = account.id ∧ user.roles = sorted account.roles ∧
      (ReadInCall t₀ p identity account c ∨ account.roles = [memberRole] ∧
        c.shared.tables.users.find? user.id = none ∧
        c'.shared.tables.findByIdentity identity.key = some account) := by
  obtain ⟨change, hp, ha⟩ := hr.commits
  have hinv : Provisioned t₀ c.shared := ((firstLogin_established hc).holds c h).1
  rcases firstLogin_knows hc h hp with ⟨new, hnew⟩ | ⟨account, hs⟩
  · have hgrown := (hinv.provision hnew ha).2
    obtain ⟨tables, ht, hw⟩ := Option.map_eq_some_iff.mp ha
    rw [hnew.change_eq] at ht
    obtain ⟨users, identities, userRoles, hu, hi, hroles, rfl⟩ := AccountChange.provision_apply ht
    have hidentity : identities.find? identity.key = some ⟨identity.issuer, identity.subject, new.id⟩ :=
      (Table.find?_insert hi).trans (if_pos rfl)
    have huser : users.find? new.id = some new := (Table.find?_insert hu).trans (if_pos rfl)
    have hnone : (c.shared.tables.userRoles.rows.filter fun r => r.userId = new.id).map UserRole.roleName = [] :=
      rolesOf_new hinv.consistent hnew.fresh.1
    have hmember : (userRoles.rows.filter fun r => r.userId = new.id).map UserRole.roleName = [memberRole] := by
      simp only [Table.rows_insert hroles, List.filter_cons, decide_true, if_true, List.map_cons, hnone]
    have hid : user.id = new.id := hnew.returns.id
    rw [← hw]
    refine ⟨⟨_, hidentity, hid.symm⟩, new.account memberRole, hnew.active, hid, hnew.returns.roles,
      .inr ⟨rfl, hid ▸ hnew.fresh.1, ?_⟩⟩
    simp only [AccountTables.findByIdentity, hidentity, huser, AccountTables.rolesOf, hmember, Option.bind_eq_bind,
      Option.bind_some]
    rfl
  · have hmaps : c'.shared.tables.Maps identity.key user.id := by
      rw [hs.returns.id]
      exact hs.known.maps.grows (hinv.synchronize hs ha).2
    refine ⟨hmaps, ?_⟩
    rcases call_seen h hp with ⟨new, hchange, -⟩ | ⟨seen, hactive, hread, hreturns, -⟩
    · rcases hs.change_eq with heq | ⟨updates, heq⟩
      all_goals
        rw [heq] at hchange
        contradiction
    · exact ⟨seen, hactive, hreturns.id, hreturns.roles, .inl hread⟩

/-- A user that a call changes is one that it read as active. -/
theorem changed_active (h : Reachable accounts (fun _ _ => True) t₀.start c) {a : CallerAction}
    (hs : accounts.step c (.act p a) = some c') {user : User} (hold : user ∈ c.shared.tables.users.rows)
    (hnew : user ∉ c'.shared.tables.users.rows) : ∃ identity account, ReadInCall t₀ p identity account c ∧
      account.id = user.id ∧ account.isActive = true := by
  obtain ⟨⟨⟨t, locks⟩, l'⟩, ha, rfl⟩ := Option.map_eq_some_iff.mp hs
  have hnew : user ∉ t.users.rows := hnew
  have htables : t = c.shared.tables ∨ ∃ identity change user, c.procs p = .resolve identity (.commit change user) ∧
      change.apply c.shared.tables = some t := callerAct_tables ha
  rcases htables with heq | ⟨identity, change, current, hl, hchange⟩
  · exact absurd (heq ▸ hold) hnew
  · rcases call_seen h hl with ⟨new, rfl, -⟩ | ⟨account, hactive, hread, -, rfl | ⟨updates, rfl⟩⟩
    · obtain ⟨users, identities, userRoles, hu, -, -, rfl⟩ := AccountChange.provision_apply hchange
      refine absurd ?_ hnew
      rw [Table.rows_insert hu]
      exact List.mem_cons_of_mem _ hold
    · obtain heq : c.shared.tables = t := Option.some.inj hchange
      exact absurd (heq ▸ hold) hnew
    · refine ⟨identity, account, hread, ?_, hactive⟩
      by_contra hne
      obtain rfl := Option.some.inj hchange
      -- The update leaves every row but that of the account.
      refine hnew (Table.mem_iff_find?.mpr ?_)
      have hother : (c.shared.tables.users.modify account.id (·.update updates)).find? user.id =
          c.shared.tables.users.find? user.id :=
        (Table.find?_modify (f := (User.update · updates)) fun _ => rfl).trans (if_neg (Ne.symm hne))
      exact hother.trans (Table.find?_of_mem hold)

/-- No call finds an identity assigned and then fails to find its account. -/
theorem never_unresolved (hc : t₀.Consistent) (h : Reachable accounts (fun _ _ => True) t₀.start c)
    {identity : ValidatedIdentity} {pc : ResolveCurrentUser.Pc} (hp : c.procs p = .resolve identity pc)
    (i : ResolveCurrentUser.Input) :
    (ResolveCurrentUser.step identity c.shared.tables i pc).2 ≠ .raised .identityProvisioning := by
  intro hraised
  have hinv : Provisioned t₀ c.shared := ((firstLogin_established hc).holds c h).1
  have hlost : pc = .find true ∧ c.shared.tables.findByIdentity identity.key = none := by
    rcases ResolveCurrentUser.step_outcome (Prod.eta _).symm with ⟨err, herr, hwhen⟩ | ⟨pc', hrun⟩ | ⟨_, _, -, hret⟩
    · exact hwhen (ResolveCurrentUser.Outcome.raised.inj (herr.symm.trans hraised))
    · cases (hraised.symm.trans hrun)
    · cases (hraised.symm.trans hret)
  obtain ⟨rfl, hnone⟩ := hlost
  exact findByIdentity_ne_none hinv.consistent (firstLogin_knows hc h hp rfl) hnone

/-- First login provisions exactly one account. -/
theorem first_login (hc : t₀.Consistent) (h : Reachable accounts (fun _ _ => True) t₀.start c) :
    -- Each identity is mapped to one user or none.
    (∀ r ∈ c.shared.tables.identities.rows, (c.shared.tables.users.find? r.userId).isSome ∧
      ∀ r' ∈ c.shared.tables.identities.rows, key r' = key r → r' = r) ∧
    -- A user that was provisioned has exactly one identity.
    (∀ user ∈ c.shared.tables.users.rows, t₀.users.find? user.id = none →
      ∃! r, r ∈ c.shared.tables.identities.rows ∧ r.userId = user.id) ∧
    -- A call creates users as members and leaves the roles of all others.
    (∀ p a c' id, accounts.step c (.act p a) = some c' → c'.shared.tables.rolesOf id =
      if c.shared.tables.users.find? id = none ∧ (c'.shared.tables.users.find? id).isSome then [memberRole]
      else c.shared.tables.rolesOf id) ∧
    -- A call returns the user that its identity is mapped to, active and with the roles that it read.
    (∀ p identity c' user, Resolves p identity c c' user → c'.shared.tables.Maps identity.key user.id ∧
      ∃ account : UserAccount, account.isActive = true ∧ user.id = account.id ∧ user.roles = sorted account.roles ∧
        (ReadInCall t₀ p identity account c ∨ account.roles = [memberRole] ∧
          c.shared.tables.users.find? user.id = none ∧
          c'.shared.tables.findByIdentity identity.key = some account)) ∧
    -- All calls for one identity return one user.
    (∀ p q identity identity' c₀ c₀' c' user user', Reachable accounts (fun _ _ => True) t₀.start c₀ →
      Resolves p identity c₀ c₀' user → Reachable accounts (fun _ _ => True) c₀' c →
      Resolves q identity' c c' user' → identity'.key = identity.key → user'.id = user.id) ∧
    -- A call changes only a user that it read as active.
    (∀ p a c', accounts.step c (.act p a) = some c' → ∀ user ∈ c.shared.tables.users.rows,
      user ∉ c'.shared.tables.users.rows → ∃ identity account, ReadInCall t₀ p identity account c ∧
        account.id = user.id ∧ account.isActive = true) ∧
    ∀ p identity pc i, c.procs p = .resolve identity pc →
      (ResolveCurrentUser.step identity c.shared.tables i pc).2 ≠ .raised .identityProvisioning := by
  have hinv : Provisioned t₀ c.shared := ((firstLogin_established hc).holds c h).1
  refine ⟨fun r hr => ⟨hinv.consistent.identities r hr, fun r' hr' hkey => ?_⟩, fun user huser hnew => ?_,
    fun p a c' id hs => roles_kept hc h hs id, fun p identity c' user hr => resolved_account hc h hr, ?_,
    fun p a c' hs user hold hnew => changed_active h hs hold hnew,
    fun p identity pc i hp => never_unresolved hc h hp i⟩
  · have hfind := Table.find?_of_mem hr'
    rw [hkey, Table.find?_of_mem hr] at hfind
    exact (Option.some.inj hfind).symm
  · have hexists : (c.shared.tables.users.find? user.id).isSome := by
      have hfind : c.shared.tables.users.find? user.id = some user := Table.find?_of_mem huser
      rw [hfind]
      rfl
    obtain ⟨r, hr, hid, honly⟩ := hinv.sole user.id hexists hnew
    exact ⟨r, ⟨hr, hid⟩, fun r' hr' => honly r' hr'.1 hr'.2⟩
  · intro p q identity identity' c₀ c₀' c' user user' hc₀ hfirst hlater hsecond hkey
    obtain ⟨i, pc, -, -, hs₀⟩ := id hfirst
    obtain ⟨j, pc', -, -, hs⟩ := id hsecond
    have hc₀' : Reachable accounts (fun _ _ => True) t₀.start c₀' := .step hc₀ trivial hs₀
    have hmaps : c'.shared.tables.Maps identity.key user.id :=
      reachable_maps hc hc₀' (resolved_account hc hc₀ hfirst).1 (.step hlater trivial hs)
    have hmaps' : c'.shared.tables.Maps identity.key user'.id := hkey ▸ (resolved_account hc h hsecond).1
    obtain ⟨r, hr, hid⟩ := hmaps
    obtain ⟨r', hr', hid'⟩ := hmaps'
    obtain rfl : r = r' := Option.some.inj (hr.symm.trans hr')
    exact hid'.symm.trans hid

/-- There are roles, and nobody has logged in. -/
def bareTables : AccountTables := ⟨.empty, .empty, [memberRole], .empty⟩

def newcomer : ValidatedIdentity := ⟨"issuer", "subject", some "user@mail", none⟩

/-- Two calls look the newcomer up before either inserts; the second meets the identity of the first. -/
def firstLoginRace : List (Label ℕ CallerAction AdministrationEvent) :=
  [.act 0 (.start newcomer), .act 1 (.start newcomer)] ++
  ([0, 1, 0, 1, 0, 1, 0, 0, 0, 1, 1, 1, 1].map fun p => .act p (.run ⟨BitVec.ofNat 128 p, p = 1⟩))

theorem first_login_race : ∃ c, Reachable accounts (fun _ _ => True) bareTables.start c ∧
    c.shared.tables.users.rows.map User.id = [0] ∧
    ∀ user ∈ c.shared.tables.users.rows, ∃! r, r ∈ c.shared.tables.identities.rows ∧ r.userId = user.id := by
  have hpasses : accounts.passes bareTables.start
      [(firstLoginRace, fun c => c.shared.tables.users.rows.map User.id = [0])] = true := by decide +kernel
  obtain ⟨c, hrun, hcheck, -⟩ := System.passes_cons hpasses
  have hids := of_decide_eq_true hcheck
  have hc : bareTables.Consistent :=
    ⟨List.forall_mem_nil _, List.forall_mem_nil _, List.mem_singleton_self _⟩
  have hr : Reachable accounts (fun _ _ => True) bareTables.start c := reachable_of_run (fun _ _ _ => trivial) hrun
  exact ⟨c, hr, hids, fun user huser => (first_login hc hr).2.1 user huser rfl⟩

end Runs

end Mic3
