import FastKV.ReplTracking

/-!
# A replica that is connected from the start

The primary installs the hook before it serves its first request, and the replica is linked
before the first record. From then on the two sides run in any order, without interruption of
the connection. The replica goes through the states of the primary, record by record, and is
like the primary whenever it has taken everything.
-/

namespace FastKV

open Lib

/-! ## The log of the primary -/

/-- The log that opening a database returns has handed nothing over. -/
theorem fastkvOpen_wal {opts : Opts} {fresh : Uuid} {disk : Disk} {w : World}
    (hopen : fastkvOpen opts fresh disk = .ok w) (hro : opts.readOnly = false) :
    ∃ wal, w.db.wal = some wal ∧ wal.hooked = [] ∧ wal.syncWrites = opts.syncWrites := by
  unfold fastkvOpen at hopen
  simp only [hro, Bool.false_eq_true, if_false] at hopen
  split at hopen
  · cases hopen
  · split at hopen
    · cases hopen
    · split at hopen
      · rename_i rc log hlog
        cases hopen
        refine ⟨log.wal, rfl, ?_⟩
        unfold walOpen at hlog
        simp only at hlog
        split at hlog
        · cases hlog
          exact ⟨rfl, rfl⟩
        · cases hlog
      · cases hopen

/-- After `fastkv_repl_serve` the hook is installed and has been handed nothing. -/
theorem fastkvReplServe_primary {opts : Opts} {fresh : Uuid} {disk : Disk} {w : World}
    (hopen : fastkvOpen opts fresh disk = .ok w) (hro : opts.readOnly = false)
    (hdisk : opts.syncWrites = true → disk.Quiet) :
    (fastkvReplServe w).Primary ∧ (fastkvReplServe w).hooked = [] := by
  obtain ⟨wal, hwal, hhooked, hmode⟩ := fastkvOpen_wal hopen hro
  have hserved : (fastkvReplServe w).db.wal = some { wal with hook := true } := by
    simp only [fastkvReplServe, hwal, Option.map_some]
  refine ⟨⟨_, hserved, rfl, fun hsync => ?_⟩, ?_⟩
  · have hworking := fastkvOpen_working (hdisk (hmode.symm.trans hsync)) hopen wal hwal
    exact ⟨hworking.io, hworking.quiet⟩
  · simp only [World.hooked, hserved, hhooked]

/-- What is handed to the hook is what is appended to the log. -/
theorem walAppend_hooked {log : Log} {name : Name} (hhook : log.wal.hook = true)
    (hatt : Log.Attached log name log) (hcap : log.wal.buf.length ≤ walBufCap) {r : Record}
    (hok : (walAppend r log).1 = .ok) : ∃ bytes,
      (walAppend r log).2.wal.hooked = log.wal.hooked ++ [bytes] ∧
      (walAppend r log).2.stream name = log.stream name ++ bytes := by
  refine ⟨r.frame.encode, ?_, (walAppend_spec hatt hcap r).stream_ok hok⟩
  rw [(walAppend_hook r log).2.2, if_pos ⟨writeFields_of_walAppend hok, hhook⟩]

/-! ## The start -/

/-- Nothing has happened yet. -/
theorem Replication.start_mirrors {opts : Opts} {fresh : Uuid} {disk : Disk} {w : World}
    (hintact : Intact opts disk.files) (hopen : fastkvOpen opts fresh disk = .ok w)
    (hro : opts.readOnly = false) (hdisk : opts.syncWrites = true → disk.Quiet) (db : Db) :
    (Replication.start w db).Mirrors w.db.stores db.stores := by
  obtain ⟨hprimary, hhooked⟩ := fastkvReplServe_primary hopen hro hdisk
  have hsound := fastkvOpen_sound hintact hopen
  have hfirst : (Replication.start w db).primary.world.hooked = [] := hhooked
  refine ⟨⟨Nat.zero_le _, ?_, fun b hb => (by cases hb), ?_, fun i hi => (by cases hi),
    fun i hi => (by cases hi), fun i hi => (by cases hi), ?_⟩, Session.start_txnsOk _,
    ⟨hsound.clock_pos, hsound.bounded, hsound.oneLive, hsound.noEmpty, hsound.wellFormed,
      hsound.linked⟩,
    hprimary, ⟨[], hfirst, fun r hr => (by cases hr), .refl _⟩,
    ⟨[], rfl, fun r hr => (by cases hr), .refl _⟩⟩
  · rw [hfirst, List.take_nil]
    rfl
  · rw [hfirst]
    exact fun data hdata => (by cases hdata)
  · exact List.nil_sublist _

/-- A sender is stopped exactly when it does not accept frames. -/
def ReplServer.Tied (s : ReplServer) : Prop :=
  ∀ (i : ℕ) (p : Peer), s.peers[i]? = some p → p.sender.stop = !p.sender.connected

/-- A step keeps it so. -/
theorem ReplServer.Tied.step {s : ReplServer} (h : s.Tied) (a : ServerStep) :
    (serverStep s a).Tied := by
  intro i p' hp'
  rcases peers_serverStep hp' with ⟨p, hp, rfl⟩ | ⟨-, -, rfl⟩
  · have hsame := h i p hp
    cases a with
    | create | advance => exact hsame
    | greet j =>
      simp only [Peer.step, Peer.greet]
      split
      · split <;> exact hsame
      · exact hsame
    | link j =>
      simp only [Peer.step, Peer.link]
      split
      · split <;> exact hsame
      · exact hsame
    | prune =>
      simp only [Peer.step, Peer.prune]
      split
      · rfl
      · exact hsame
    | enqueue alloc =>
      simp only [Peer.step, Peer.offer, senderEnqueue]
      repeat' split
      all_goals first | exact hsame | rfl
    | drain j ok =>
      simp only [Peer.step, senderDrain]
      repeat' split
      all_goals first | exact hsame | rfl | skip
      rename_i hstop
      exact hstop
  · rfl

/-- The sender of the replica's connection is in the list and accepts frames. -/
structure Replication.Linked (i : ℕ) (s : Replication) : Prop where
  /-- The connection. -/
  conn : s.client.receiver.conn = some i
  /-- Its sender. -/
  peer : ∃ p, s.server.peers[i]? = some p ∧ p.stage = .linked ∧ p.sender.connected = true

section Run

variable {s : Replication} {origin origin' : Stores}

/-- A step of either side keeps the senders so. -/
theorem Replication.tied_step (h : s.server.Tied) (a : ReplStep) :
    (replStep s a).server.Tied := by
  cases a with
  | request | lose => exact h
  | server a => cases a <;> first | exact h | exact h.step _
  | connect =>
    simp only [replStep]
    split
    · exact h.step .create
    · exact h
  | broadcast =>
    simp only [replStep]
    split
    · exact h.step _
    · exact h
  | receive | reads =>
    simp only [replStep]
    split <;> exact h

/-- What holds in every run of the two sides. -/
theorem Replication.run_mirrors (hmirrors : s.Mirrors origin origin') (htied : s.server.Tied)
    (steps : List ReplStep) (hclock : s.primary.clock + drawsMax * steps.length < tsMax) :
    ((exec replStep s steps).Mirrors origin origin' ∧ (exec replStep s steps).server.Tied) ∧
      (exec replStep s steps).primary.clock ≤ s.primary.clock + drawsMax * steps.length := by
  refine exec_induction_of_growth (P := fun _ _ => True)
    (I := fun s => s.Mirrors origin origin' ∧ s.server.Tied) (fun s => s.primary.clock) drawsMax
    (fun s a _ hc => replStep_clock hc a)
    (fun s a h hc _ => ⟨h.1.step hc a, Replication.tied_step h.2 a⟩) steps ⟨hmirrors, htied⟩
    hclock (Permitted.of_forall steps s fun _ _ _ => trivial)

/-- A connection that was linked before the first record. -/
theorem Replication.Linked.whole {i : ℕ} (h : s.Linked i) (hmirrors : s.Mirrors origin origin')
    (htied : s.server.Tied) (hnone : s.primary.world.hooked = []) : s.Whole i [] 0 := by
  obtain ⟨p, hp, hstage, hconnected⟩ := h.peer
  obtain ⟨p', hp', hshaped, -⟩ := hmirrors.inOrder.conn i h.conn
  rw [hp] at hp'
  cases hp'
  have hstop := htied i p hp
  have hframes : framesFrom 0 s.queuedData = [] := by
    rw [Replication.queuedData, hnone, List.take_nil]
    rfl
  have hempty : s.client.seen ++ s.untaken = [] := by
    have hsub := hmirrors.inOrder.sublist
    rw [hframes] at hsub
    exact List.sublist_nil.mp hsub
  obtain ⟨hseen, huntaken⟩ := List.append_eq_nil_iff.mp hempty
  have hexpected : s.expected [] 0 = [] := by
    rw [Replication.expected, hframes]
    rfl
  refine ⟨h.conn, Nat.zero_le _, p, hp, ⟨?_, fun _ => ⟨hstage, ?_⟩, fun hc => ?_, Or.inl hstage⟩,
    fun _ => hempty.trans hexpected.symm, ?_⟩
  · cases hshaped with
    | created | greeted => cases hstage
    | opened o frames hsent => exact ⟨o, frames, hsent⟩
  · rw [hstop, hconnected]
    rfl
  · rw [hconnected] at hc
    cases hc
  · rw [Replication.untaken_eq h.conn hp] at huntaken
    rw [hseen, (List.append_eq_nil_iff.mp huntaken).1]
    exact List.nil_prefix

/-- What holds as long as the connection is not interrupted. -/
theorem Replication.Whole.run {i n : ℕ} {pre : List ReplMsg} (h : s.Whole i pre n)
    (hmirrors : s.Mirrors origin origin') (steps : List ReplStep)
    (hclock : s.primary.clock + drawsMax * steps.length < tsMax)
    (hsteps : ∀ a ∈ steps, a.Unbroken) : (exec replStep s steps).Whole i pre n := by
  have hrun := exec_induction_of_growth (P := fun _ a => a.Unbroken)
    (I := fun s => s.Whole i pre n ∧ s.Mirrors origin origin')
    (fun s => s.primary.clock) drawsMax (fun s a _ hc => replStep_clock hc a)
    (fun s a h hc ha => ⟨h.1.step h.2 hc ha, h.2.step hc a⟩) steps ⟨h, hmirrors⟩ hclock
    (Permitted.of_forall steps s fun a ha _ => hsteps a ha)
  exact hrun.1.1

/-- The records in frames. -/
theorem payload_framesFrom (datas : List Bytes) : ∀ o : ℕ,
    (framesFrom o datas).map ReplMsg.payload = datas := by
  induction datas with
  | nil => exact fun o => rfl
  | cons data datas ih =>
    intro o
    rw [framesFrom, List.map_cons, ih]

/-- What the replica has applied is a beginning of what the primary has logged. -/
theorem Replication.Whole.applied {i : ℕ} (h : s.Whole i [] 0) {rs rs' : List Record}
    (hrs : s.primary.world.hooked = encodings rs) (hvalid : ∀ r ∈ rs, r.Valid)
    (hrs' : s.client.seen.map ReplMsg.payload = encodings rs') (hvalid' : ∀ r ∈ rs', r.Valid) :
    rs' = rs.take rs'.length := by
  obtain ⟨p, -, -, -, hsent⟩ := h.peer
  have hseen : s.client.seen <+: framesFrom 0 s.queuedData :=
    (List.prefix_append _ _).trans hsent
  have hdata : encodings rs' <+: encodings rs := by
    have hmap := hseen.map ReplMsg.payload
    rw [payload_framesFrom, hrs'] at hmap
    rw [← hrs]
    exact hmap.trans (List.take_prefix _ _)
  refine encodings_inj hvalid' (fun r hr => hvalid r (List.mem_of_mem_take hr)) ?_
  rw [List.prefix_iff_eq_take.mp hdata]
  simp [encodings]

/-- It is everything, if nothing is on its way. -/
theorem Replication.Whole.all_applied {i : ℕ} (h : s.Whole i [] 0) {p : Peer}
    (hp : s.server.peers[i]? = some p) (hconnected : p.sender.connected = true)
    (huntaken : s.untaken = []) (hpending : s.server.pending = none)
    (hhanded : s.handed = s.primary.world.hooked.length) :
    s.client.seen.map ReplMsg.payload = s.primary.world.hooked := by
  obtain ⟨p', hp', -, hall, -⟩ := h.peer
  rw [hp] at hp'
  cases hp'
  have hseen := hall hconnected
  have hdata : s.queuedData = s.primary.world.hooked := by
    rw [Replication.queuedData, Replication.queued, hpending]
    exact List.take_of_length_le hhanded.ge
  rw [huntaken, List.append_nil, Replication.expected, hdata] at hseen
  rw [hseen]
  exact payload_framesFrom _ _

end Run

/-! ## The replica and the primary -/

/-- A replica starts with the structures of the primary, both being new for instance, and is
linked before the first record is logged. Then, as long as its connection is not interrupted
and there is memory for the frames, whatever the primary is asked to do and in whatever order
the threads run: what an append hands to the hook is what it adds to the log; the replica has
the tree and the live versions that a beginning of the records of the primary gives; and these
are the primary's own whenever all records have been broadcast and taken. The log is assumed to
work: with synchronous writes the disk fails no call. -/
theorem replica_tracks_primary {opts : Opts} {fresh : Uuid} {disk : Disk} {w : World} {db : Db}
    (hintact : Intact opts disk.files) (hopen : fastkvOpen opts fresh disk = .ok w)
    (hro : opts.readOnly = false) (hdisk : opts.syncWrites = true → disk.Quiet)
    (halike : db.stores.Alike w.db.stores) (before steps : List ReplStep)
    (hclock : w.db.clock + drawsMax * (before ++ steps).length < tsMax) {i : ℕ}
    (hlinked : (exec replStep (.start w db) before).Linked i)
    (hnone : (exec replStep (.start w db) before).primary.world.hooked = [])
    (hsteps : ∀ a ∈ steps, a.Unbroken) {s : Replication}
    (hs : s = exec replStep (.start w db) (before ++ steps)) :
    (∀ (log : Log) (name : Name) (r : Record), log.wal.hook = true → Log.Attached log name log →
      log.wal.buf.length ≤ walBufCap → (walAppend r log).1 = .ok → ∃ bytes,
        (walAppend r log).2.wal.hooked = log.wal.hooked ++ [bytes] ∧
        (walAppend r log).2.stream name = log.stream name ++ bytes) ∧
    ∃ rs : List Record, s.primary.world.hooked = encodings rs ∧
      s.primary.world.db.stores.Alike (w.db.stores.replayed rs) ∧
      (∃ k ≤ rs.length, s.client.db.stores.Alike (w.db.stores.replayed (rs.take k))) ∧
      ∀ p, s.server.peers[i]? = some p → p.sender.connected = true → s.handed = rs.length →
        s.server.pending = none → s.untaken = [] →
          s.client.db.stores.Alike s.primary.world.db.stores := by
  refine ⟨fun log name r hhook hatt hcap hok => walAppend_hooked hhook hatt hcap hok, ?_⟩
  rw [List.length_append, Nat.mul_add, ← Nat.add_assoc] at hclock
  obtain ⟨⟨hmirrors₀, htied₀⟩, hgrowth⟩ := Replication.run_mirrors
    (Replication.start_mirrors hintact hopen hro hdisk db) (fun i p hp => by cases hp) before
    (lt_of_le_of_lt (Nat.le_add_right _ _) hclock)
  have hclock₀ : (exec replStep (.start w db) before).primary.clock + drawsMax * steps.length <
      tsMax := lt_of_le_of_lt (Nat.add_le_add_right hgrowth _) hclock
  obtain ⟨⟨hmirrors, -⟩, -⟩ := Replication.run_mirrors hmirrors₀ htied₀ steps hclock₀
  have hwhole := (hlinked.whole hmirrors₀ htied₀ hnone).run hmirrors₀ steps hclock₀ hsteps
  rw [← exec_append, ← hs] at hmirrors hwhole
  obtain ⟨rs, hrs, hvalid, hstores⟩ := hmirrors.records
  obtain ⟨rs', hrs', hvalid', hstores'⟩ := hmirrors.seen
  have hclient : s.client.db.stores.Alike (w.db.stores.replayed rs') :=
    hstores'.trans (halike.replayRecords rs')
  refine ⟨rs, hrs, hstores, ⟨min rs'.length rs.length, Nat.min_le_right _ _, ?_⟩,
    fun p hp hconnected hhanded hpending huntaken => ?_⟩
  · rw [← List.take_eq_take_min, ← hwhole.applied hrs (fun r hr => (hvalid r hr).valid) hrs'
      fun r hr => (hvalid' r hr).valid]
    exact hclient
  · have hall := hwhole.all_applied hp hconnected huntaken hpending (by
      rw [hhanded, hrs]
      exact (List.length_map _).symm)
    rw [hrs', hrs] at hall
    rw [encodings_inj (fun r hr => (hvalid' r hr).valid) (fun r hr => (hvalid r hr).valid) hall]
      at hclient
    exact hclient.trans hstores.symm

/-- The replica connects and is linked. -/
def connects : List ReplStep := [.connect, .server (.greet 0), .server (.link 0)]

/-- The primary writes a key twice, and the replica takes everything. -/
def writesAfter : List ReplStep :=
  [.request (.put [1] (some [10])), .broadcast, .request (.put [1] (some [11])),
    .server (.enqueue fun _ => true), .broadcast, .server (.enqueue fun _ => true),
    .server (.drain 0 true), .server (.drain 0 true), .receive [], .receive [], .receive []]

/-- At the end of it the replica is like the primary. -/
theorem replica_tracks_writesAfter :
    (exec replStep (.start newWorld newWorld.db) (connects ++ writesAfter)).client.db.stores.Alike
      (exec replStep (.start newWorld newWorld.db)
        (connects ++ writesAfter)).primary.world.db.stores ∧
    (exec replStep (.start newWorld newWorld.db)
      (connects ++ writesAfter)).client.db.ht.live [1] = some [11] := by
  refine ⟨?_, by decide +kernel⟩
  have hlinked : (exec replStep (.start newWorld newWorld.db) connects).Linked 0 := by
    have hpeer : ((exec replStep (.start newWorld newWorld.db) connects).server.peers[0]?).map
        (fun p => (p.stage, p.sender.connected)) = some (.linked, true) := by decide +kernel
    obtain ⟨p, hp, heq⟩ := Option.map_eq_some_iff.mp hpeer
    exact ⟨by decide +kernel, p, hp, congrArg Prod.fst heq, congrArg Prod.snd heq⟩
  have hunbroken : ∀ a ∈ writesAfter, a.Unbroken := by
    simp [writesAfter, ReplStep.Unbroken]
  obtain ⟨-, rs, hrs, -, -, hall⟩ := replica_tracks_primary (intact_empty oneBucket)
    newWorld_opened rfl (fun hsync => by cases hsync) (.refl newWorld.db.stores) connects
    writesAfter (by decide +kernel) hlinked (by decide +kernel) hunbroken rfl
  have hpeer : ((exec replStep (.start newWorld newWorld.db)
      (connects ++ writesAfter)).server.peers[0]?).map (·.sender.connected) = some true := by
    decide +kernel
  obtain ⟨p, hp, hconnected⟩ := Option.map_eq_some_iff.mp hpeer
  have hlength : rs.length = 2 := by
    have hhooked : (exec replStep (.start newWorld newWorld.db)
        (connects ++ writesAfter)).primary.world.hooked.length = 2 := by decide +kernel
    rw [hrs] at hhooked
    simpa [encodings] using hhooked
  have hpending : (exec replStep (.start newWorld newWorld.db)
      (connects ++ writesAfter)).server.pending.isNone := by decide +kernel
  have huntaken : (exec replStep (.start newWorld newWorld.db)
      (connects ++ writesAfter)).untaken.isEmpty := by decide +kernel
  refine hall p hp hconnected ?_ (Option.isNone_iff_eq_none.mp hpending)
    (List.isEmpty_iff.mp huntaken)
  rw [hlength]
  decide +kernel

end FastKV
