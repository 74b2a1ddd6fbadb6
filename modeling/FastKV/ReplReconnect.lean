import FastKV.ReplRun
import FastKV.Upkeep

/-!
# A replica that connects again

A connection can be lost at any time, also because the server stops a sender whose queue is
full, and the thread of the replica then connects again. The greeting only tells the offset of
the primary: records that were logged while no sender of the replica was in the list, or that
were queued or on their way when a connection ended, are not sent again. What the replica has at
the end is therefore decided key by key, by whether the last record of the key has reached it.
-/

namespace FastKV

open Lib

/-! ## What can be read on the replica -/

/-- A replayed record keeps the table bounded. -/
theorem Ht.Bounded.replayRecord {s : Stores} {clock : ℕ} (h : s.ht.Bounded clock) {r : Record}
    (hts : r.ts < clock) : (replayRecord r s).ht.Bounded clock := by
  unfold FastKV.replayRecord
  cases r.type with
  | put => exact h.insert hts _ _
  | delete => exact h.insert hts _ _
  | commit => exact h
  | begin => exact h

section Reconnect

variable {s : Replication} {origin origin' : Stores}

/-- The versions on the replica are older than its clock. -/
theorem Replication.Mirrors.bounded_step (h : s.Mirrors origin origin')
    (hbounded : s.client.db.ht.Bounded s.client.db.clock) (a : ReplStep) :
    (replStep s a).client.db.ht.Bounded (replStep s a).client.db.clock := by
  cases a with
  | request | lose => exact hbounded
  | server a => cases a <;> exact hbounded
  | broadcast | connect =>
    simp only [replStep]
    split <;> exact hbounded
  | reads txnMgr =>
    simp only [replStep]
    split
    · rename_i hle
      exact hbounded.mono hle
    · exact hbounded
  | receive beyond =>
    simp only [replStep]
    split
    · exact hbounded
    · rename_i m hm
      rcases h.inOrder.next_cases hm with ⟨i, o, hreceiver, -, rfl⟩ | ⟨i, p, hreceiver, -, hun⟩
      · simp only [FastKV.receive, hreceiver]
        split <;> exact hbounded
      · obtain ⟨r, hr, hpayload, hmagic, hlen⟩ := h.record_of_untaken (m := m) (by
          rw [hun]
          exact List.mem_cons_self)
        obtain ⟨hstores, hclock⟩ := applyWalRecord_record hr.valid beyond s.client.db
        have hts : add64 r.ts 1 = r.ts + 1 := by
          have hlt := hr.ts_lt
          unfold tsMax at hlt
          exact Nat.mod_eq_of_lt (by omega)
        rw [hts] at hclock
        rw [receive_record hreceiver hr.valid hmagic hlen]
        show (applyWalRecord beyond m.payload s.client.db).stores.ht.Bounded
          (applyWalRecord beyond m.payload s.client.db).clock
        rw [hpayload, hstores, hclock]
        have hlater : s.client.db.stores.ht.Bounded (max s.client.db.clock (r.ts + 1)) :=
          Ht.Bounded.mono hbounded (Nat.le_max_left _ _)
        exact hlater.replayRecord (lt_of_lt_of_le (Nat.lt_succ_self _) (Nat.le_max_right _ _))

/-- What holds in every run of the two sides. -/
theorem Replication.run_bounded (hmirrors : s.Mirrors origin origin')
    (hbounded : s.client.db.ht.Bounded s.client.db.clock) (steps : List ReplStep)
    (hclock : s.primary.clock + drawsMax * steps.length < tsMax) :
    (exec replStep s steps).client.db.ht.Bounded (exec replStep s steps).client.db.clock := by
  have hrun := exec_induction_of_growth (P := fun _ _ => True)
    (I := fun s => s.Mirrors origin origin' ∧ s.client.db.ht.Bounded s.client.db.clock)
    (fun s => s.primary.clock) drawsMax (fun s a _ hc => replStep_clock hc a)
    (fun s a h hc _ => ⟨h.1.step hc a, h.1.bounded_step h.2 a⟩) steps ⟨hmirrors, hbounded⟩ hclock
    (Permitted.of_forall steps s fun _ _ _ => trivial)
  exact hrun.1.2

/-! ## The last connection -/

/-- The replica is on a connection whose sender is about to be put in the list. -/
structure Replication.Greeted (i : ℕ) (s : Replication) : Prop where
  /-- The connection. -/
  conn : s.client.receiver.conn = some i
  /-- Its sender. -/
  peer : ∃ p, s.server.peers[i]? = some p ∧ p.stage = .greeted

/-- From then on the replica sees all frames. -/
theorem Replication.Greeted.whole {i : ℕ} (h : s.Greeted i) (hinOrder : s.InOrder) :
    (replStep s (.server (.link i))).Whole i s.client.seen s.queued := by
  obtain ⟨p, hp, hstage⟩ := h.peer
  obtain ⟨p', hp', hshaped, htaken⟩ := hinOrder.conn i h.conn
  rw [hp] at hp'
  cases hp'
  cases hshaped with
  | created => cases hstage
  | opened o frames hsent hopened =>
    rcases hopened with hs | hs <;> rw [hs] at hstage <;> cases hstage
  | greeted o =>
    have hpeer : (serverStep s.server (.link i)).peers[i]? =
        some ⟨{ senderCreate with sent := [replHello o] }, .linked⟩ := by
      have hstep := getElem?_serverStep hp (.link i)
      simpa [Peer.step, Peer.link] using hstep
    have hlength : (framesFrom 0 s.queuedData).length = s.queued := by
      have hqueued : s.queued ≤ s.handed := by
        unfold Replication.queued
        split <;> omega
      have hlen := congrArg List.length (payload_framesFrom s.queuedData 0)
      rw [List.length_map] at hlen
      rw [hlen, Replication.queuedData, List.length_take,
        Nat.min_eq_left (hqueued.trans hinOrder.handed_le)]
    have hmax : max 1 s.client.taken = 1 := max_eq_left htaken
    have huntaken : (replStep s (.server (.link i))).untaken = [] := by
      have hafter : (replStep s (.server (.link i))).untaken = _ :=
        Replication.untaken_eq (s := replStep s (.server (.link i))) h.conn hpeer
      rw [hafter]
      show ReplSender.after _ (max 1 s.client.taken) = []
      rw [hmax]
      rfl
    have hexpected : (replStep s (.server (.link i))).expected s.client.seen s.queued =
        s.client.seen := by
      show s.client.seen ++ (framesFrom 0 s.queuedData).drop s.queued = s.client.seen
      rw [← hlength, List.drop_length, List.append_nil]
    refine ⟨h.conn, hlength.ge, _, hpeer, ⟨⟨o, [], rfl⟩, fun _ => ⟨rfl, rfl⟩,
      fun hc => (by cases hc), Or.inl rfl⟩, fun _ => ?_, ?_⟩
    · rw [huntaken, hexpected, List.append_nil]
      rfl
    · rw [hexpected]
      have hnone : s.client.seen ++ [replHello o].drop (max 1 s.client.taken) = s.client.seen := by
        rw [hmax, List.drop_one, List.tail_cons, List.append_nil]
      exact ⟨[], (List.append_nil _).trans hnone⟩

/-- What the replica has applied when nothing is on its way: some of the records that were
queued before its last connection was linked, and all later ones. -/
theorem Replication.Whole.kept {i n : ℕ} {pre : List ReplMsg} (h : s.Whole i pre n)
    (hmirrors : s.Mirrors origin origin') {rs : List Record}
    (hrs : s.primary.world.hooked = encodings rs) {p : Peer}
    (hp : s.server.peers[i]? = some p) (hconnected : p.sender.connected = true)
    (huntaken : s.untaken = []) (hpending : s.server.pending = none)
    (hhanded : s.handed = s.primary.world.hooked.length) :
    ∃ kept : List Record, kept.Sublist (rs.take n) ∧
      s.client.seen.map ReplMsg.payload = encodings (kept ++ rs.drop n) := by
  obtain ⟨p', hp', -, hall, -⟩ := h.peer
  rw [hp] at hp'
  cases hp'
  have hdata : s.queuedData = encodings rs := by
    rw [Replication.queuedData, Replication.queued, hpending, ← hrs]
    exact List.take_of_length_le hhanded.ge
  have hseen := hall hconnected
  rw [huntaken, List.append_nil, Replication.expected, hdata] at hseen
  have hsub : (pre ++ (framesFrom 0 (encodings rs)).drop n).Sublist
      ((framesFrom 0 (encodings rs)).take n ++ (framesFrom 0 (encodings rs)).drop n) := by
    have hall := hmirrors.inOrder.sublist
    rw [huntaken, List.append_nil, hdata, hseen] at hall
    rwa [List.take_append_drop]
  have hpre := ((List.append_sublist_append_right _).mp hsub).map ReplMsg.payload
  rw [List.map_take, payload_framesFrom, encodings, ← List.map_take] at hpre
  obtain ⟨kept, hkept, heq⟩ := List.sublist_map_iff.mp hpre
  refine ⟨kept, hkept, ?_⟩
  rw [hseen, List.map_append, List.map_drop, payload_framesFrom, heq]
  simp [encodings]

/-- The value of a key on the replica is that of the primary if the last record of the key has
been applied. -/
theorem live_eq_of_lastOn {m m' : Bytes → Slice} {kept older newer : List Record} {key : Bytes}
    (hkept : ∀ r ∈ kept ++ newer, r.Shipped) (hall : ∀ r ∈ older ++ newer, r.Shipped)
    (hsame : m key = m' key)
    (hlast : (lastOn key newer).isSome ∨ lastOn key kept = lastOn key older) :
    updates m (kept ++ newer) key = updates m' (older ++ newer) key := by
  rw [updates_eq_lastOn m key fun r hr => (hkept r hr).write,
    updates_eq_lastOn m' key fun r hr => (hall r hr).write, lastOn_append, lastOn_append, hsame]
  rcases hlast with hnewer | hsame
  · obtain ⟨r, hr⟩ := Option.isSome_iff_exists.mp hnewer
    rw [hr, Option.some_or, Option.some_or]
  · rw [hsame]

end Reconnect

/-- The replica starts with the structures of the primary, and the two sides run in any way:
connections are lost and made again any number of times, frames are dropped with stopped
senders, and the primary keeps serving requests. If the last connection is not interrupted after
its sender was linked, there is memory for its frames and all of them have been taken, then the
replica has applied some of the records that were queued before that link, in their order, and
all later ones. On every key whose last record is one of the later ones, or was among those it
had received before, the same value can be read on both sides. -/
theorem replica_converges_on_received {opts opts' : Opts} {fresh fresh' : Uuid}
    {disk disk' : Disk} {w w' : World} (hintact : Intact opts disk.files)
    (hopen : fastkvOpen opts fresh disk = .ok w) (hro : opts.readOnly = false)
    (hdisk : opts.syncWrites = true → disk.Quiet) (hintact' : Intact opts' disk'.files)
    (hopen' : fastkvOpen opts' fresh' disk' = .ok w') (halike : w'.db.stores.Alike w.db.stores)
    (before steps : List ReplStep) {i : ℕ}
    (hclock : w.db.clock + drawsMax * (before ++ .server (.link i) :: steps).length < tsMax)
    (hlast : (exec replStep (.start w w'.db) before).Greeted i)
    (hsteps : ∀ a ∈ steps, a.Unbroken) {s : Replication}
    (hs : s = exec replStep (.start w w'.db) (before ++ .server (.link i) :: steps))
    (hclock' : s.client.db.clock < tsMax) {p : Peer} (hp : s.server.peers[i]? = some p)
    (hconnected : p.sender.connected = true) (huntaken : s.untaken = [])
    (hpending : s.server.pending = none)
    (hhanded : s.handed = s.primary.world.hooked.length) {n : ℕ}
    (hn : n = (exec replStep (.start w w'.db) before).queued) :
    ∃ rs kept : List Record, s.primary.world.hooked = encodings rs ∧ (∀ r ∈ rs, r.Valid) ∧
      kept.Sublist (rs.take n) ∧
      s.client.seen.map ReplMsg.payload = encodings (kept ++ rs.drop n) ∧
      ∀ key, (lastOn key (rs.drop n)).isSome ∨ lastOn key kept = lastOn key (rs.take n) →
        s.client.db.newest key = s.primary.world.db.newest key := by
  have hstart := Replication.start_mirrors hintact hopen hro hdisk w'.db
  have hsound' := fastkvOpen_sound hintact' hopen'
  obtain ⟨⟨hmirrors, -⟩, hgrowth⟩ := Replication.run_mirrors hstart (fun i p hp => by cases hp) _
    hclock
  have hbounded := Replication.run_bounded hstart hsound'.bounded _ hclock
  rw [← hs] at hmirrors hbounded hgrowth
  have hnow : s.primary.clock < tsMax := lt_of_le_of_lt hgrowth hclock
  rw [List.length_append, List.length_cons, Nat.mul_add, ← Nat.add_assoc] at hclock
  obtain ⟨⟨hmirrors₀, -⟩, hgrowth₀⟩ := Replication.run_mirrors hstart (fun i p hp => by cases hp)
    before (lt_of_le_of_lt (Nat.le_add_right _ _) hclock)
  have hroom : (exec replStep (.start w w'.db) before).primary.clock +
      drawsMax * (steps.length + 1) < tsMax :=
    lt_of_le_of_lt (Nat.add_le_add_right hgrowth₀ _) hclock
  rw [Nat.mul_succ, ← Nat.add_assoc] at hroom
  have hlinked := hmirrors₀.step (by omega) (.server (.link i))
  have hwhole := (hlast.whole hmirrors₀.inOrder).run hlinked steps
    (lt_of_le_of_lt (Nat.le_add_right _ drawsMax) hroom) hsteps
  rw [← exec_cons, ← exec_append, ← hs, ← hn] at hwhole
  obtain ⟨rs, hrs, hshipped, hstores⟩ := hmirrors.records
  obtain ⟨rs', hrs', hshipped', hstores'⟩ := hmirrors.seen
  obtain ⟨kept, hkept, hseen⟩ :=
    hwhole.kept hmirrors hrs hp hconnected huntaken hpending hhanded
  have hvalid : ∀ r ∈ kept ++ rs.drop n, r.Valid := by
    intro r hr
    rcases List.mem_append.mp hr with hr | hr
    · exact (hshipped r (List.mem_of_mem_take (hkept.subset hr))).valid
    · exact (hshipped r (List.mem_of_mem_drop hr)).valid
  have happlied : rs' = kept ++ rs.drop n :=
    encodings_inj (fun r hr => (hshipped' r hr).valid) hvalid (hrs'.symm.trans hseen)
  refine ⟨rs, kept, hrs, fun r hr => (hshipped r hr).valid, hkept, hseen, fun key hkey => ?_⟩
  have hclient : s.client.db.newest key = updates w'.db.ht.live (kept ++ rs.drop n) key := by
    rw [Db.newest_of_bounded hbounded hclock', ← happlied]
    have hlive := hstores'.live key
    rw [Stores.replayed, live_foldl_replayRecord] at hlive
    exact hlive
  have hprimary : s.primary.world.db.newest key = updates w.db.ht.live rs key := by
    rw [hmirrors.sound.newest_eq hnow]
    have hlive := hstores.live key
    rw [Stores.replayed, live_foldl_replayRecord] at hlive
    exact hlive
  rw [hclient, hprimary]
  rw [happlied] at hshipped'
  rw [← List.take_append_drop n rs] at hshipped
  have hvalue := live_eq_of_lastOn hshipped' hshipped (halike.live key) hkey
  rw [List.take_append_drop] at hvalue
  exact hvalue

/-- The first connection is lost, and the primary writes a key before the replica connects again
and takes all there is for it. -/
def writtenBetween : List ReplStep :=
  [.lose, .request (.put [1] (some [10])), .broadcast, .server (.enqueue fun _ => true),
    .connect, .server (.greet 1)]

/-- Another key is written afterwards. -/
def writtenSince : List ReplStep :=
  [.receive [], .request (.put [2] (some [20])), .broadcast, .server (.enqueue fun _ => true),
    .server (.drain 1 true), .receive []]

/-- The records of the two writes. -/
def twoPuts : List Record := [⟨.put, 2, [1], some [10]⟩, ⟨.put, 4, [2], some [20]⟩]

/-- The second key can be read on the replica as on the primary. -/
theorem replica_converges_writtenSince :
    (exec replStep (.start newWorld newWorld.db) (connects ++ writtenBetween ++
      .server (.link 1) :: writtenSince)).client.db.newest [2] =
    (exec replStep (.start newWorld newWorld.db) (connects ++ writtenBetween ++
      .server (.link 1) :: writtenSince)).primary.world.db.newest [2] := by
  have hgreeted : (exec replStep (.start newWorld newWorld.db)
      (connects ++ writtenBetween)).Greeted 1 := by
    have hpeer : ((exec replStep (.start newWorld newWorld.db)
        (connects ++ writtenBetween)).server.peers[1]?).map Peer.stage = some .greeted := by
      decide +kernel
    obtain ⟨p, hp, hstage⟩ := Option.map_eq_some_iff.mp hpeer
    exact ⟨by decide +kernel, p, hp, hstage⟩
  have hunbroken : ∀ a ∈ writtenSince, a.Unbroken := by
    simp [writtenSince, ReplStep.Unbroken]
  have hpeer : ((exec replStep (.start newWorld newWorld.db) (connects ++ writtenBetween ++
      .server (.link 1) :: writtenSince)).server.peers[1]?).map (·.sender.connected) =
        some true := by decide +kernel
  obtain ⟨p, hp, hconnected⟩ := Option.map_eq_some_iff.mp hpeer
  have huntaken : (exec replStep (.start newWorld newWorld.db) (connects ++ writtenBetween ++
      .server (.link 1) :: writtenSince)).untaken.isEmpty := by decide +kernel
  have hpending : (exec replStep (.start newWorld newWorld.db) (connects ++ writtenBetween ++
      .server (.link 1) :: writtenSince)).server.pending.isNone := by decide +kernel
  have hqueued : 1 = (exec replStep (.start newWorld newWorld.db)
      (connects ++ writtenBetween)).queued := by decide +kernel
  obtain ⟨rs, kept, hrs, hvalid, -, -, hkeys⟩ := replica_converges_on_received
    (intact_empty oneBucket) newWorld_opened rfl (fun hsync => by cases hsync)
    (intact_empty oneBucket) newWorld_opened (.refl _) (connects ++ writtenBetween) writtenSince
    (by decide +kernel) hgreeted hunbroken rfl (by decide +kernel) hp hconnected
    (List.isEmpty_iff.mp huntaken) (Option.isNone_iff_eq_none.mp hpending) (by decide +kernel)
    hqueued
  have hlogged : (exec replStep (.start newWorld newWorld.db) (connects ++ writtenBetween ++
      .server (.link 1) :: writtenSince)).primary.world.hooked = encodings twoPuts := by
    decide +kernel
  have hputs : ∀ r ∈ twoPuts, r.Valid := by
    intro r hr
    rcases List.mem_pair.mp hr with rfl | rfl <;>
      exact ⟨by decide, by decide, fun v hv => by rw [← Option.mem_some_iff.mp hv]; decide⟩
  rw [encodings_inj hvalid hputs (hrs.symm.trans hlogged)] at hkeys
  exact hkeys [2] (Or.inl (by decide))

/-- The first one cannot, although nothing is on its way. -/
theorem replica_misses_writtenBetween : ¬ ∀ (steps : List ReplStep) (i : ℕ) (p : Peer)
    (s : Replication), s = exec replStep (.start newWorld newWorld.db) steps →
    s.client.receiver.conn = some i → s.server.peers[i]? = some p → p.stage = .linked →
    p.sender.connected = true → s.untaken = [] → s.server.pending = none →
    s.handed = s.primary.world.hooked.length →
      ∀ key, s.client.db.newest key = s.primary.world.db.newest key := by
  intro hclaim
  have hpeer : ((exec replStep (.start newWorld newWorld.db) (connects ++ writtenBetween ++
      .server (.link 1) :: writtenSince)).server.peers[1]?).map
        (fun p => (p.stage, p.sender.connected)) = some (.linked, true) := by decide +kernel
  obtain ⟨p, hp, heq⟩ := Option.map_eq_some_iff.mp hpeer
  have huntaken : (exec replStep (.start newWorld newWorld.db) (connects ++ writtenBetween ++
      .server (.link 1) :: writtenSince)).untaken.isEmpty := by decide +kernel
  have hpending : (exec replStep (.start newWorld newWorld.db) (connects ++ writtenBetween ++
      .server (.link 1) :: writtenSince)).server.pending.isNone := by decide +kernel
  have hsame := hclaim _ 1 p _ rfl (by decide +kernel) hp (congrArg Prod.fst heq)
    (congrArg Prod.snd heq) (List.isEmpty_iff.mp huntaken)
    (Option.isNone_iff_eq_none.mp hpending) (by decide +kernel) [1]
  have hmissing : (exec replStep (.start newWorld newWorld.db) (connects ++ writtenBetween ++
      .server (.link 1) :: writtenSince)).client.db.newest [1] = none := by decide +kernel
  have hwritten : (exec replStep (.start newWorld newWorld.db) (connects ++ writtenBetween ++
      .server (.link 1) :: writtenSince)).primary.world.db.newest [1] = some [10] := by
    decide +kernel
  rw [hmissing, hwritten] at hsame
  cases hsame

end FastKV
