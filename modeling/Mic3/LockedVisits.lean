import Mic3.LockedSections

/-! Any number of visits of `locked`, each at a session of its own: what survives every step of one of them, and every
session that the server drops. -/
namespace Mic3
open Relational Interleaving

namespace Locked
variable {tidy : Prop} {p q : ℕ} {l m : Locked} {x : Session ℤ RunWrite} {server : LockServer} {k : ℤ}

/-- Nothing is written, and where no lock was stranded none is held: a connection that waits in the pool. -/
def Idle (tidy : Prop) (x : Session ℤ RunWrite) : Prop := x.transaction.writes = [] ∧ Free tidy x

theorem idle_lost : Idle tidy .lost := ⟨rfl, fun _ _ => rfl⟩

/-- A visit finds out later that its session was lost. -/
theorem Knows.lost (h : l.Knows tidy p x) : l.Knows tidy p .lost := by
  have hmine : l.Mine p .lost := mine_of_writes (x := Session.lost) rfl
  have hfree : Free tidy .lost := fun _ _ => rfl
  unfold Knows at h ⊢
  refine ⟨fun _ => rfl, ?_⟩
  replace h := h.2
  revert h
  cases l.pc with
  | acquire => exact fun h => ⟨h.1, h.2.1, rfl, hfree⟩
  | acquired ok =>
    intro h
    refine ⟨h.1, h.2.1, rfl, ?_⟩
    split
    · exact owns_lost
    · exact hfree
  | body stage => exact fun h => ⟨h.1, h.2.1, hmine, owns_lost⟩
  | rollback stage failure => exact fun h => ⟨h.1, hmine, owns_lost⟩
  | cleanup => exact fun h => ⟨h.1, hmine, owns_lost⟩
  | driverRolledBack => exact fun h => ⟨h.1, h.2.1, rfl, owns_lost⟩
  | unlock => exact fun h => ⟨h.1, h.2.1, rfl, owns_lost⟩
  | unlocked => exact fun h => ⟨h.1, h.2.1, rfl, hfree⟩
  | close => exact fun _ => ⟨fun _ => rfl, hmine, hfree⟩

/-- Where no lock was stranded, a visit holds the lock of its run if it holds any. -/
theorem Knows.key (h : l.Knows tidy p x) (ht : tidy) (halive : x.alive = true) (hk : 0 < x.locks k) : k = l.key := by
  have hnone (hfree : Free tidy x) : k = l.key := absurd (hfree ht k) (ne_of_gt hk)
  have howns (howns : l.Owns tidy x) : k = l.key := by
    by_contra hother
    rw [(howns halive).2 ht k, if_neg hother] at hk
    exact lt_irrefl 0 hk
  unfold Knows at h
  replace h := h.2
  revert h
  cases l.pc with
  | acquire => exact fun h => hnone h.2.2.2
  | acquired ok =>
    cases ok with
    | true => exact fun h => howns h.2.2.2
    | false => exact fun h => hnone h.2.2.2
  | body stage => exact fun h => howns h.2.2.2
  | rollback stage failure => exact fun h => howns h.2.2
  | cleanup => exact fun h => howns h.2.2
  | driverRolledBack => exact fun h => howns h.2.2.2
  | unlock => exact fun h => howns h.2.2.2
  | unlocked => exact fun h => hnone h.2.2.2
  | close => exact fun h => hnone h.2.2

/-- The body has the record only while its session, if the server still has it, holds the lock. -/
theorem Knows.holdsRecord (h : l.Knows tidy p x) (hrecord : l.holdsRecord = true) : l.Owns tidy x := by
  unfold Knows at h
  unfold Locked.holdsRecord at hrecord
  replace h := h.2
  revert h hrecord
  cases l.pc with
  | body stage => exact fun _ h => h.2.2.2
  | rollback stage failure => exact fun _ h => h.2.2
  | acquire | acquired _ | cleanup | driverRolledBack | unlock | unlocked | close => exact fun h => absurd h Bool.false_ne_true

theorem Knows.close (h : l.Knows tidy p x) (hpc : l.pc = .close) :
    (l.connection.transaction = .inactive → x.transaction.writes = []) ∧ Free tidy x := by
  simp only [Knows, hpc] at h
  exact ⟨h.2.1, h.2.2.2⟩

end Locked

abbrev LockConfig := Config ℕ LockWorld LockWorker

namespace LockConfig

/-- The visit that a worker is in. -/
def visiting (c : LockConfig) (p : ℕ) : Option Locked := (c.procs p).current

def sessionOf (c : LockConfig) (l : Locked) : Session ℤ RunWrite := c.shared.server.session l.connection.session

/-- Every session that the server has belongs to the pool, where it is idle, or to one visit, which knows about it. -/
structure Separate (tidy : Prop) (c : LockConfig) : Prop where
  wellFormed : c.shared.server.WellFormed
  pool : ∀ s ∈ c.shared.pool, s < c.shared.server.created ∧ Locked.Idle tidy (c.shared.server.session s)
  visits : ∀ p l, c.visiting p = some l → l.visit < (c.procs p).visits ∧
    l.connection.session < c.shared.server.created ∧ l.connection.session ∉ c.shared.pool ∧ l.Knows tidy p (c.sessionOf l)
  apart : ∀ p q l m, c.visiting p = some l → c.visiting q = some m → p ≠ q → l.connection.session ≠ m.connection.session
  owned : ∀ s, (c.shared.server.session s).alive = true →
    s ∈ c.shared.pool ∨ ∃ p l, c.visiting p = some l ∧ l.connection.session = s

end LockConfig

/-- What a worker's step is: it enters with a new connection or one of the pool, it leaves, or its visit goes on. -/
theorem lockedRuns_cases {p : ℕ} {a : LockAction} {w w' : LockWorld} {u u' : LockWorker}
    (hs : lockedRuns.act p a w u = some (w', u')) :
    (u.current = none ∧ ∃ runId, w' = { w with server := w.server.connect } ∧
      u' = ⟨u.visits + 1, some ⟨runId, u.visits, ⟨w.server.created, false, .none⟩, .acquire⟩⟩) ∨
    (u.current = none ∧ ∃ runId, ∃ s ∈ w.pool, w' = { w with pool := w.pool.erase s } ∧
      u' = ⟨u.visits + 1, some ⟨runId, u.visits, ⟨s, false, .none⟩, .acquire⟩⟩) ∨
    (∃ l, u.current = some l ∧ l.pc = .close ∧ u' = ⟨u.visits, none⟩ ∧
      ((l.connection.invalidated = true ∨ (w.server.session l.connection.session).alive = false) ∧ w' = w ∨
        (w.server.session l.connection.session).alive = true ∧
          (l.connection.transaction = .inactive ∧ w' = { w with pool := insert l.connection.session w.pool } ∨
            w' = ⟨w.server.rollback l.connection.session, insert l.connection.session w.pool⟩ ∨
            w' = { w with server := w.server.drop l.connection.session }))) ∨
    ∃ l server c pc, u.current = some l ∧ l.step p w.server a = some (server, c, pc) ∧
      w' = { w with server } ∧ u' = ⟨u.visits, some { l with connection := c, pc }⟩ := by
  unfold lockedRuns at hs
  dsimp only at hs
  split at hs
  · rename_i hnone
    split at hs
    · cases hs
      exact .inl ⟨hnone, _, rfl, rfl⟩
    · split at hs
      · rename_i hpool
        cases hs
        exact .inr (.inl ⟨hnone, _, _, hpool.1, rfl, rfl⟩)
      · contradiction
    · contradiction
  · rename_i l hsome
    split at hs
    · rename_i hpc
      refine .inr (.inr (.inl ⟨l, hsome, hpc, ?_⟩))
      split at hs
      · rename_i hdropped
        cases hs
        exact ⟨rfl, .inl ⟨hdropped.imp id Bool.eq_false_iff.mpr, rfl⟩⟩
      · rename_i hkept
        have halive := not_not.mp (not_or.mp hkept).2
        split at hs
        · rename_i hinactive
          cases hs
          exact ⟨rfl, .inr ⟨halive, .inl ⟨hinactive, rfl⟩⟩⟩
        · split at hs
          · cases hs
            exact ⟨rfl, .inr ⟨halive, .inr (.inl rfl)⟩⟩
          · cases hs
            exact ⟨rfl, .inr ⟨halive, .inr (.inr rfl)⟩⟩
    · obtain ⟨⟨server, c, pc⟩, hstep, he⟩ := Option.map_eq_some_iff.mp hs
      cases he
      exact .inr (.inr (.inr ⟨l, server, c, pc, hsome, hstep, rfl, rfl⟩))

namespace LockConfig
variable {tidy : Prop} {c c' : LockConfig} {p : ℕ} {w : LockWorld} {u : LockWorker} {l : Locked}

/-- The configuration after a step of one worker. -/
def after (c : LockConfig) (p : ℕ) (w : LockWorld) (u : LockWorker) : LockConfig := ⟨w, Function.update c.procs p u⟩

theorem visiting_self : (c.after p w u).visiting p = u.current := by
  unfold after visiting
  dsimp only
  rw [Function.update_self]

theorem visiting_other {q : ℕ} (hq : q ≠ p) : (c.after p w u).visiting q = c.visiting q := by
  unfold after visiting
  dsimp only
  rw [Function.update_of_ne hq]

theorem procs_self : (c.after p w u).procs p = u := Function.update_self ..

theorem procs_other {q : ℕ} (hq : q ≠ p) : (c.after p w u).procs q = c.procs q := Function.update_of_ne hq ..

/-- What is left to show of a step of one worker. -/
theorem Separate.after (h : c.Separate tidy) (hwf : w.server.WellFormed)
    (hpool : ∀ s ∈ w.pool, s < w.server.created ∧ Locked.Idle tidy (w.server.session s))
    (hown : ∀ l, u.current = some l → l.visit < u.visits ∧ l.connection.session < w.server.created ∧
      l.connection.session ∉ w.pool ∧ l.Knows tidy p (w.server.session l.connection.session))
    (hothers : ∀ q m, q ≠ p → c.visiting q = some m → m.connection.session < w.server.created ∧
      m.connection.session ∉ w.pool ∧ m.Knows tidy q (w.server.session m.connection.session))
    (hapart : ∀ q m l, q ≠ p → c.visiting q = some m → u.current = some l → l.connection.session ≠ m.connection.session)
    (howned : ∀ s, (w.server.session s).alive = true → s ∈ w.pool ∨ (∃ l, u.current = some l ∧ l.connection.session = s) ∨
      ∃ q m, q ≠ p ∧ c.visiting q = some m ∧ m.connection.session = s) :
    (c.after p w u).Separate tidy := by
  refine ⟨hwf, hpool, fun q m hm => ?_, fun q r m n hm hn hqr => ?_, fun s hs => ?_⟩
  · by_cases hq : q = p
    · subst hq
      rw [visiting_self] at hm
      rw [procs_self]
      exact hown m hm
    · rw [visiting_other hq] at hm
      rw [procs_other hq]
      exact ⟨(h.visits q m hm).1, hothers q m hq hm⟩
  · by_cases hq : q = p
    · subst hq
      rw [visiting_self] at hm
      rw [visiting_other (Ne.symm hqr)] at hn
      exact hapart r n m (Ne.symm hqr) hn hm
    · rw [visiting_other hq] at hm
      by_cases hr : r = p
      · subst hr
        rw [visiting_self] at hn
        exact (hapart q m n hq hm hn).symm
      · rw [visiting_other hr] at hn
        exact h.apart q r m n hm hn hqr
  · rcases howned s hs with hin | ⟨m, hm, he⟩ | ⟨q, m, hq, hm, he⟩
    · exact .inl hin
    · exact .inr ⟨p, m, by rw [visiting_self, hm], he⟩
    · exact .inr ⟨q, m, by rw [visiting_other hq, hm], he⟩

/-- Whoever owns a session, where one worker is not in a visit. -/
theorem Separate.owned_elsewhere (h : c.Separate tidy) (hp : c.visiting p = none) {s : ℕ}
    (hs : (c.shared.server.session s).alive = true) :
    s ∈ c.shared.pool ∨ ∃ q m, q ≠ p ∧ c.visiting q = some m ∧ m.connection.session = s := by
  refine (h.owned s hs).imp id ?_
  rintro ⟨q, m, hm, he⟩
  refine ⟨q, m, ?_, hm, he⟩
  rintro rfl
  rw [hp] at hm
  contradiction

/-- A visit that starts is given a connection that is idle. -/
theorem acquire_knows (runId : UUID) (visit s : ℕ) {x : Session ℤ RunWrite} (hx : Locked.Idle tidy x) :
    (⟨runId, visit, ⟨s, false, .none⟩, .acquire⟩ : Locked).Knows tidy p x :=
  ⟨fun hdropped => absurd hdropped Bool.false_ne_true, rfl, rfl, hx⟩

theorem Separate.connect (h : c.Separate tidy) (hp : c.visiting p = none) (runId : UUID) :
    (c.after p { c.shared with server := c.shared.server.connect } ⟨(c.procs p).visits + 1,
      some ⟨runId, (c.procs p).visits, ⟨c.shared.server.created, false, .none⟩, .acquire⟩⟩).Separate tidy := by
  have hnew : c.shared.server.connect.session c.shared.server.created = ⟨true, .none, fun _ => 0⟩ :=
    Function.update_self ..
  have hold {s : ℕ} (hs : s < c.shared.server.created) :
      c.shared.server.connect.session s = c.shared.server.session s := Function.update_of_ne (ne_of_lt hs) ..
  refine h.after h.wellFormed.connect ?_ ?_ ?_ ?_ ?_
  · intro s hs
    obtain ⟨hcreated, hclean⟩ := h.pool s hs
    refine ⟨Nat.lt_succ_of_lt hcreated, ?_⟩
    rwa [hold hcreated]
  · intro l hl
    cases hl
    refine ⟨Nat.lt_succ_self _, Nat.lt_succ_self _, fun hpool => absurd (h.pool _ hpool).1 (lt_irrefl _), ?_⟩
    dsimp only
    rw [hnew]
    exact acquire_knows _ _ _ ⟨rfl, fun _ _ => rfl⟩
  · intro q m _ hm
    obtain ⟨-, hcreated, hpool, hknows⟩ := h.visits q m hm
    refine ⟨Nat.lt_succ_of_lt hcreated, hpool, ?_⟩
    dsimp only
    rwa [hold hcreated]
  · intro q m l _ hm hl
    cases hl
    exact ne_of_gt (h.visits q m hm).2.1
  · intro s hs
    by_cases he : s = c.shared.server.created
    · exact .inr (.inl ⟨_, rfl, he.symm⟩)
    · have hs' : (c.shared.server.session s).alive = true := by rwa [← Function.update_of_ne he _ c.shared.server.session]
      exact (h.owned_elsewhere hp hs').imp id .inr

theorem Separate.take (h : c.Separate tidy) (hp : c.visiting p = none) (runId : UUID) {s : ℕ} (hs : s ∈ c.shared.pool) :
    (c.after p { c.shared with pool := c.shared.pool.erase s } ⟨(c.procs p).visits + 1,
      some ⟨runId, (c.procs p).visits, ⟨s, false, .none⟩, .acquire⟩⟩).Separate tidy := by
  obtain ⟨hcreated, hclean⟩ := h.pool s hs
  refine h.after h.wellFormed (fun j hj => h.pool j (Finset.mem_of_mem_erase hj)) ?_ ?_ ?_ ?_
  · intro l hl
    cases hl
    exact ⟨Nat.lt_succ_self _, hcreated, Finset.notMem_erase s _, acquire_knows _ _ _ hclean⟩
  · intro q m _ hm
    obtain ⟨-, hm', hpool, hknows⟩ := h.visits q m hm
    exact ⟨hm', fun hin => hpool (Finset.mem_of_mem_erase hin), hknows⟩
  · intro q m l _ hm hl
    cases hl
    rintro rfl
    exact (h.visits q m hm).2.2.1 hs
  · intro j hj
    by_cases he : j = s
    · exact .inr (.inl ⟨_, rfl, he.symm⟩)
    · rcases h.owned_elsewhere hp hj with hpool | hused
      · exact .inl (Finset.mem_erase.mpr ⟨he, hpool⟩)
      · exact .inr (.inr hused)

/-- Whoever owns a session that is not the one of this visit. -/
theorem Separate.owned_other (h : c.Separate tidy) (hl : c.visiting p = some l) {s : ℕ} (hs : s ≠ l.connection.session)
    (halive : (c.shared.server.session s).alive = true) :
    s ∈ c.shared.pool ∨ ∃ q m, q ≠ p ∧ c.visiting q = some m ∧ m.connection.session = s := by
  refine (h.owned s halive).imp id ?_
  rintro ⟨q, m, hm, rfl⟩
  refine ⟨q, m, ?_, hm, rfl⟩
  rintro rfl
  rw [hl] at hm
  cases hm
  exact hs rfl

/-- A connection that is lost does not come back to the pool. -/
theorem Separate.leave_lost (h : c.Separate tidy) (hl : c.visiting p = some l)
    (hdead : l.connection.invalidated = true ∨ (c.sessionOf l).alive = false) :
    (c.after p c.shared ⟨(c.procs p).visits, none⟩).Separate tidy := by
  refine h.after h.wellFormed h.pool (fun _ he => by cases he) (fun q m _ hm => (h.visits q m hm).2)
    (fun _ _ _ _ _ he => by cases he) ?_
  intro s hs
  have hne : s ≠ l.connection.session := by
    rintro rfl
    have hlost : (c.sessionOf l).alive = false := hdead.elim (h.visits p l hl).2.2.2.1 id
    exact absurd (hs.symm.trans hlost) (by decide)
  exact (h.owned_other hl hne hs).imp id .inr

/-- A connection goes back to the pool with what its session is then. -/
theorem Separate.leave (h : c.Separate tidy) (hl : c.visiting p = some l) {server : LockServer} {x : Session ℤ RunWrite}
    (hserver : Becomes c.shared.server server l.connection.session x) (hclean : x.alive = false → x.Clean)
    (hlocks : x.locks = (c.sessionOf l).locks) (hidle : Locked.Idle tidy x) :
    (c.after p ⟨server, insert l.connection.session c.shared.pool⟩ ⟨(c.procs p).visits, none⟩).Separate tidy := by
  obtain ⟨-, hcreated, -, -⟩ := h.visits p l hl
  have hself : server.session l.connection.session = x := by rw [hserver.session, Function.update_self]
  have hother {s : ℕ} (hs : s ≠ l.connection.session) : server.session s = c.shared.server.session s := by
    rw [hserver.session, Function.update_of_ne hs]
  have hsame : server.created = c.shared.server.created := hserver.created
  refine h.after ?_ ?_ (fun _ he => by cases he) ?_ (fun _ _ _ _ _ he => by cases he) ?_
  · refine h.wellFormed.update hcreated hserver.session hsame hclean fun k hk => ?_
    rw [hlocks] at hk
    exact .inl hk
  · intro s hs
    by_cases he : s = l.connection.session
    · subst he
      refine ⟨hsame ▸ hcreated, ?_⟩
      dsimp only
      rwa [hself]
    · obtain ⟨hs', hs''⟩ := h.pool s (Finset.mem_of_mem_insert_of_ne hs he)
      refine ⟨hsame ▸ hs', ?_⟩
      dsimp only
      rwa [hother he]
  · intro q m hq hm
    obtain ⟨-, hm', hpool, hknows⟩ := h.visits q m hm
    have hne := h.apart q p m l hm hl hq
    refine ⟨hsame ▸ hm', fun hin => hpool (Finset.mem_of_mem_insert_of_ne hin hne), ?_⟩
    dsimp only
    rwa [hother hne]
  · intro s hs
    by_cases he : s = l.connection.session
    · exact .inl (Finset.mem_insert.mpr (.inl he))
    · dsimp only at hs
      rw [hother he] at hs
      exact (h.owned_other hl he hs).imp Finset.mem_insert_of_mem .inr

/-- A step of a visit. -/
theorem Separate.moves (h : c.Separate tidy) (hl : c.visiting p = some l) {server : LockServer} {connection : Connection}
    {pc : Locked.Pc} (hmoves : l.Moves tidy p c.shared.server server connection pc) :
    (c.after p { c.shared with server } ⟨(c.procs p).visits, some { l with connection, pc }⟩).Separate tidy := by
  obtain ⟨hvisit, hcreated, hpool, -⟩ := h.visits p l hl
  obtain ⟨hconnection, ⟨x, hsession, hclean, hlocks, hknows⟩, hsame, -⟩ := hmoves
  have hself : server.session l.connection.session = x := by rw [hsession, Function.update_self]
  have hother {s : ℕ} (hs : s ≠ l.connection.session) : server.session s = c.shared.server.session s := by
    rw [hsession, Function.update_of_ne hs]
  refine h.after ?_ ?_ ?_ ?_ ?_ ?_
  · exact h.wellFormed.update hcreated hsession hsame hclean hlocks
  · intro s hs
    obtain ⟨hs', hs''⟩ := h.pool s hs
    have hne : s ≠ l.connection.session := by
      rintro rfl
      exact hpool hs
    refine ⟨hsame ▸ hs', ?_⟩
    dsimp only
    rwa [hother hne]
  · intro m hm
    cases hm
    dsimp only
    rw [hconnection, hself, hsame]
    exact ⟨hvisit, hcreated, hpool, hknows⟩
  · intro q m hq hm
    obtain ⟨-, hm', hm'', hknows'⟩ := h.visits q m hm
    refine ⟨hsame ▸ hm', hm'', ?_⟩
    dsimp only
    rwa [hother (h.apart q p m l hm hl hq)]
  · intro q m n hq hm hn
    cases hn
    dsimp only
    rw [hconnection]
    exact (h.apart q p m l hm hl hq).symm
  · intro s hs
    by_cases he : s = l.connection.session
    · exact .inr (.inl ⟨_, rfl, hconnection.trans he.symm⟩)
    · dsimp only at hs
      rw [hother he] at hs
      exact (h.owned_other hl he hs).imp id .inr

/-- The server loses a session. -/
theorem Separate.drop (h : c.Separate tidy) {s : ℕ} (hs : s < c.shared.server.created) :
    Separate tidy ⟨{ c.shared with server := c.shared.server.drop s }, c.procs⟩ := by
  have hself : (c.shared.server.drop s).session s = .lost := Function.update_self ..
  have hother {j : ℕ} (hj : j ≠ s) : (c.shared.server.drop s).session j = c.shared.server.session j :=
    Function.update_of_ne hj ..
  refine ⟨?_, fun j hj => ?_, fun q m hm => ?_, h.apart, fun j hj => ?_⟩
  · exact h.wellFormed.update hs rfl rfl (fun _ => Session.lost_clean) (fun k hk => absurd hk (lt_irrefl 0))
  · obtain ⟨hcreated, hclean⟩ := h.pool j hj
    refine ⟨hcreated, ?_⟩
    by_cases he : j = s
    · subst he
      dsimp only
      rw [hself]
      exact Locked.idle_lost
    · dsimp only
      rwa [hother he]
  · obtain ⟨hvisit, hcreated, hpool, hknows⟩ := h.visits q m hm
    refine ⟨hvisit, hcreated, hpool, ?_⟩
    unfold sessionOf
    by_cases he : m.connection.session = s
    · dsimp only
      rw [he, hself]
      exact hknows.lost
    · dsimp only
      rwa [hother he]
  · by_cases he : j = s
    · subst he
      dsimp only at hj
      rw [hself] at hj
      contradiction
    · dsimp only at hj
      rw [hother he] at hj
      exact h.owned j hj

/-- No answer to a statement of `locked` itself leaves a lock with a connection that is given up. -/
def Keeps (c : LockConfig) (label : Label ℕ LockAction ℕ) : Prop :=
  ∀ p l answer, label = .act p (.run answer) → c.visiting p = some l → l.strands answer = false

/-- What a step is, where it is a worker's. -/
theorem Separate.step (h : c.Separate tidy) {label : Label ℕ LockAction ℕ} (hkeeps : tidy → c.Keeps label)
    (hs : lockedRuns.step c label = some c') : c'.Separate tidy := by
  cases label with
  | act p a =>
    obtain ⟨⟨w, u⟩, hact, rfl⟩ := Option.map_eq_some_iff.mp hs
    rcases lockedRuns_cases hact with
      ⟨hp, runId, rfl, rfl⟩ | ⟨hp, runId, s, hpool, rfl, rfl⟩ |
        ⟨l, hl, hpc, rfl, ⟨hdead, rfl⟩ | ⟨halive, ⟨hinactive, rfl⟩ | rfl | rfl⟩⟩ |
        ⟨l, server, connection, pc, hl, hstep, rfl, rfl⟩
    · exact h.connect hp runId
    · exact h.take hp runId hpool
    · exact h.leave_lost hl hdead
    · obtain ⟨hwritten, hfree⟩ := (h.visits p l hl).2.2.2.close hpc
      refine h.leave hl (becomes_self _ _) (fun hdead => ?_) rfl ⟨hwritten hinactive, hfree⟩
      exact absurd (halive.symm.trans hdead) (by decide)
    · obtain ⟨-, hfree⟩ := (h.visits p l hl).2.2.2.close hpc
      refine h.leave hl (update_becomes c.shared.server _ _) (fun hdead => ?_) rfl ⟨rfl, hfree⟩
      exact absurd (halive.symm.trans hdead) (by decide)
    · -- The connection is lost, and then it is left.
      have hdropped := h.drop (h.visits p l hl).2.1
      have hlost : (c.shared.server.drop l.connection.session).session l.connection.session = .lost :=
        Function.update_self ..
      exact hdropped.leave_lost hl (.inr (congrArg Session.alive hlost))
    · have htidy (ht : tidy) (answer : Answer) (he : a = .run answer) : l.strands answer = false :=
        hkeeps ht p l answer (by rw [he]) hl
      exact h.moves hl (Locked.step_moves h.wellFormed htidy (h.visits p l hl).2.2.2 hstep)
  | env s =>
    obtain ⟨w, hdrop, rfl⟩ := Option.map_eq_some_iff.mp hs
    change (if s < _ then _ else none) = some w at hdrop
    split at hdrop
    · rename_i hcreated
      cases hdrop
      exact h.drop hcreated
    · contradiction

/-- Nobody is in a visit, and there are no connections. -/
def start : LockConfig := ⟨LockWorld.start, fun _ => ⟨0, none⟩⟩

theorem start_separate : start.Separate tidy :=
  ⟨Server.start_wellFormed, fun _ hs => absurd hs (Finset.notMem_empty _), fun _ _ he => (by cases he),
    fun _ _ _ _ he => (by cases he), fun _ he => absurd he Bool.false_ne_true⟩

theorem separate_of_reachable (h : Reachable lockedRuns (fun _ _ => True) start c) : c.Separate False :=
  h.invariant (Separate False) start_separate fun _ _ _ _ hd _ hs => hd.step False.elim hs

/-- Where no lock is stranded, more is known of the locks. -/
theorem separate_of_path (h : Path lockedRuns Keeps start c) : c.Separate True :=
  h.invariant (Separate True) start_separate fun _ _ _ _ hd hkeeps hs => hd.step (fun _ => hkeeps) hs

end LockConfig
end Mic3
