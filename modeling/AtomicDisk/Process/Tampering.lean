import AtomicDisk.Transfer.Layout
import AtomicDisk.Process.Filtering
import AtomicDisk.Process.Responses
import AtomicDisk.Process.Views

/-! Badly tagged messages leave no trace in the registers. A run with its streams is compared with a run of
    the same process on the purged streams, which leaves out what is done about badly tagged messages:

        run        ──read m──▶ ──read bad──▶ ──refuse──▶ ──deliver m──▶
                    │           │             │           │             same registers, queues and permits
        purged     ──read m──▶ ═════════════════════════  ──deliver m──▶

    From left to right the purged run stands still; from right to left a run on the streams first deals
    with the badly tagged messages in front of the one that is read.

    The bytes that are skipped in front of a badly tagged message go with it. If they stay (`excise`), they and
    the bytes behind the message may make up a header, and a message that was read is not read any more. -/

namespace AtomicDisk.Process
open Schemes Register Transfer

variable {p : Config} {key : List UInt8} {effs : List (Effect Ticket)} {c s : ℕ} {t : Ticket}

/-! ### The purged run -/

section runs

variable {w w' : Connected} {tr tr' : List WireEntry} {x y : WireEntry}

/-- What has been delivered can be seen. -/
theorem pushed_view (w w' : World) : pushed w.view w'.view = pushed w w' := by
  simp only [pushed, World.view, List.length_map, List.getElem?_map]
  congr 1
  funext s
  cases w.workers[s]? with
  | none => rfl
  | some k =>
    cases w'.workers[s]? with
    | none => rfl
    | some k' =>
      simp only [Option.map_some, Worker.view, List.length_map, ← List.map_drop, List.map_map]
      rfl

theorem accepted_append (tr tr' : List WireEntry) : accepted (tr ++ tr') = accepted tr ++ accepted tr' :=
  List.filterMap_append

/-- A state, and one of the purged run. -/
structure Alike (p : Config) (key : List UInt8) (w w' : Connected) : Prop where
  view : w.tasks.view = w'.tasks.view
  unread : w'.unread = w.unread.map (purge p.hmac (keysOf p key))

theorem Alike.conn (h : Alike p key w w') (c : ℕ) :
    (w.tasks.world.conns[c]?).map Conn.view = (w'.tasks.world.conns[c]?).map Conn.view := by
  have hconns := congrArg (fun v => v.world.conns[c]?) h.view
  simpa only [Tasks.view, World.view, List.getElem?_map] using hconns

/-- On purged streams nothing is refused for its tag. -/
theorem no_hmac_refusal (hr' : WireRun p key tr' w')
    (haccepted : accepted tr' = (accepted tr).map (purge p.hmac (keysOf p key))) (c : ℕ) (t : Ticket) :
    w'.tasks.world.conns[c]? ≠ some (.replyingHmac t) := by
  intro hc
  have hledger := ledger hr'
  have hlt : c < (accepted tr').length := hledger.conns ▸ (List.getElem?_eq_some_iff.mp hc).1
  obtain ⟨stream', hstream'⟩ : ∃ stream', (accepted tr')[c]? = some stream' :=
    ⟨_, List.getElem?_eq_getElem hlt⟩
  obtain ⟨handled, inHand, hfiltered⟩ := hledger.filtered c stream' hstream'
  obtain ⟨k, rest, hk, -, hdecodes, hhand⟩ := hfiltered.read
  obtain rfl : .replyingHmac t = k := Option.some.inj (hc.symm.trans hk)
  obtain ⟨stream, -, rfl⟩ : ∃ stream ∈ accepted tr, purge p.hmac (keysOf p key) stream = stream' := by
    have hmem := List.mem_of_getElem? hstream'
    rw [haccepted] at hmem
    exact List.mem_map.mp hmem
  obtain ⟨ms, -, -, -, hfilter⟩ := decodes_purge hdecodes
  have hmem : (.client t.cmd, false) ∈ ms.filter Prod.snd := by
    rw [hfilter, hfiltered.messages]
    cases hhand
    exact List.mem_append_right _ (List.mem_singleton_self _)
  simpa using (List.mem_filter.mp hmem).2

theorem set_same {α : Type} {l : List α} {a : α} (h : l[c]? = some a) : l.set c a = l := by
  obtain ⟨hlt, rfl⟩ := List.getElem?_eq_some_iff.mp h
  exact List.set_getElem_self hlt

/-- The run on the purged streams, and how far it has come. -/
structure Followed (p : Config) (key : List UInt8) (tr : List WireEntry) (w : Connected)
    (tr' : List WireEntry) (w' : Connected) : Prop where
  run : WireRun p key tr' w'
  accepted : accepted tr' = (accepted tr).map (purge p.hmac (keysOf p key))
  alike : Alike p key w w'
  delivered : ∀ c, deliveredBy c tr' = deliveredBy c tr

/-- A step that the purged run leaves out. -/
theorem Followed.skip (h : Followed p key tr x.pre tr' w')
    (haccepted : Process.accepted (tr ++ [x]) = Process.accepted tr) (hview : x.post.tasks.view = x.pre.tasks.view)
    (hunread : x.post.unread.map (purge p.hmac (keysOf p key)) = x.pre.unread.map (purge p.hmac (keysOf p key))) :
    Followed p key (tr ++ [x]) x.post tr' w' := by
  refine ⟨h.run, ?_, ⟨hview.trans h.alike.view, ?_⟩, fun c => ?_⟩
  · rw [haccepted, h.accepted]
  · rw [hunread, h.alike.unread]
  · have hworld : x.post.tasks.world.view = x.pre.tasks.world.view := congrArg Tasks.world hview
    have hnil : deliveredIn c x = [] := by
      rw [deliveredIn, ← pushed_view, hworld, pushed_view, pushed_same rfl, ite_self]
    rw [h.delivered, deliveredBy, deliveredBy, List.flatMap_append, List.flatMap_singleton, hnil, List.append_nil]

/-- A step that the purged run takes as well. -/
theorem Followed.follow (h : Followed p key tr x.pre tr' y.pre)
    (hproper : ∀ stream, y.event = .accept stream → Proper p.hmac (keysOf p key) p.nSectors stream)
    (hs : wireStep p key y.pre y.event = some (y.post, y.out)) (hconn : y.event.conn = x.event.conn)
    (haccepted : Process.accepted (tr' ++ [y]) = (Process.accepted (tr ++ [x])).map (purge p.hmac (keysOf p key)))
    (halike : Alike p key x.post y.post) : Followed p key (tr ++ [x]) x.post (tr' ++ [y]) y.post := by
  refine ⟨.snoc h.run hproper hs, haccepted, halike, fun c => ?_⟩
  have hpre : y.pre.tasks.world.view = x.pre.tasks.world.view := congrArg Tasks.world h.alike.view.symm
  have hpost : y.post.tasks.world.view = x.post.tasks.world.view := congrArg Tasks.world halike.view.symm
  have hin : deliveredIn c y = deliveredIn c x := by
    rw [deliveredIn, deliveredIn, hconn, ← pushed_view, hpre, hpost, pushed_view]
  rw [deliveredBy, deliveredBy, List.flatMap_append, List.flatMap_append, List.flatMap_singleton,
    List.flatMap_singleton, hin]
  exact congrArg (· ++ _) (h.delivered c)

/-- A badly tagged message is read: nothing is seen of it. -/
theorem view_receive_bad {w w' : Tasks} {cmd : RegisterCommand}
    (hs : taskStep p w (.run (.receive c cmd false)) = some (w', effs)) : w'.view = w.view := by
  have hreading := reading_of_receive hs
  have hruns : w.runs p (.receive c cmd false) = some (w', effs) := by
    rcases cmd with cmd | cmd <;> exact hs
  obtain ⟨world, hstep, rfl⟩ := Tasks.runs_eq hruns
  simp only [step, hreading] at hstep
  obtain ⟨rfl, rfl⟩ := Prod.mk.inj (Option.some.inj hstep)
  rcases cmd with cmd | cmd
  · refine Tasks.view_ext ?_ rfl rfl rfl rfl rfl
    simp only [World.receive, List.map_set]
    exact set_same (by rw [List.getElem?_map, hreading]; rfl)
  · rfl

/-- It is refused: nothing is seen of that either. -/
theorem view_reply_bad {w w' : Tasks} (hwritable : ∀ c, w.failed c = none)
    (hc : w.world.conns[c]? = some (.replyingHmac t))
    (hs : taskStep p w (.run (.reply c)) = some (w', effs)) : w'.view = w.view := by
  rw [taskStep_reply (hwritable c) hc (Or.inl ⟨rfl, rfl⟩)] at hs
  obtain ⟨rfl, rfl⟩ := Prod.mk.inj (Option.some.inj hs)
  refine Tasks.view_ext ?_ rfl rfl rfl rfl ?_
  · simp only [List.map_set]
    exact set_same (by rw [List.getElem?_map, hc]; rfl)
  · funext c'
    rw [hwritable c']
    exact w.taken_none (hwritable c')

/-- What the task of a connection does besides reading. -/
theorem inside_conn {e : TaskEvent} (hinside : e.inside = true) (hconn : e.conn = some c) :
    e = .run (.acquire c) ∨ e = .run (.send c) ∨ e = .run (.reply c) := by
  cases e with
  | fail | panics => cases hconn
  | run e =>
    cases e with
    | acquire | send | reply =>
      obtain rfl := Option.some.inj hconn
      simp
    | receive | hangUp => simp [TaskEvent.inside] at hinside
    | _ => cases hconn

/-- What a connection that refuses a badly tagged command can do next. -/
theorem reply_of_replying {w w' : Tasks} {e : TaskEvent} (hinside : e.inside = true)
    (hconn : e.conn = some c) (hc : w.world.conns[c]? = some (.replyingHmac t))
    (hs : taskStep p w e = some (w', effs)) : e = .run (.reply c) := by
  rcases inside_conn hinside hconn with rfl | rfl | rfl
  · simp [taskStep, Tasks.runs, step, hc] at hs
  · simp [taskStep, hc] at hs
  · rfl

theorem not_replying_of_reading {w : Tasks} {e : TaskEvent} (hconn : e.conn = some c)
    (hc : w.world.conns[c]? = some .reading) :
    ∀ c', e.conn = some c' → ∀ t, w.world.conns[c']? ≠ some (.replyingHmac t) := by
  intro c' hconn' t hreplying
  obtain rfl : c = c' := Option.some.inj (hconn.symm.trans hconn')
  cases hc.symm.trans hreplying

theorem followed_step (h : Followed p key tr x.pre tr' w') (hsteady : Steady p x.pre)
    (hproper : ∀ stream, x.event = .accept stream → Proper p.hmac (keysOf p key) p.nSectors stream)
    (hs : WireStepped p key x.pre x.event x.post x.out) :
    ∃ tr'' w'', Followed p key (tr ++ [x]) x.post tr'' w'' := by
  have hno' := no_hmac_refusal h.run h.accepted
  obtain ⟨w, e, effs, w₁⟩ := x
  simp only at h hsteady hproper hs
  cases hs with
  | @accepts stream tasks effs htask =>
    obtain ⟨tasks', effs', htask', hview⟩ := taskStep_alike h.alike.view (by simp [TaskEvent.conn])
      (by simp [TaskEvent.conn]) htask
    refine ⟨_, _, h.follow (y := ⟨w', .accept (purge p.hmac (keysOf p key) stream), effs',
      ⟨tasks', w'.unread ++ [purge p.hmac (keysOf p key) stream]⟩⟩) ?_ ?_ rfl ?_ ⟨hview, ?_⟩⟩
    · rintro stream' ⟨⟩
      exact (hproper stream rfl).purge
    · simp only [wireStep, htask', Option.map_some]
    · simp only [Process.accepted, List.filterMap_append, List.map_append]
      exact congrArg (· ++ _) h.accepted
    · simp only [List.map_append, h.alike.unread]
      rfl
  | @receives c stream rest cmd ok tasks effs hstream hread htask =>
    cases ok with
    | false =>
      refine ⟨tr', w', h.skip (by simp [Process.accepted]) (view_receive_bad htask) ?_⟩
      rw [List.map_set]
      exact set_same (by rw [List.getElem?_map, hstream, Option.map_some, purge_bad hread])
    | true =>
      have hreading := reading_of_receive htask
      have hunread : w'.unread[c]? = some (purge p.hmac (keysOf p key) stream) := by
        rw [h.alike.unread, List.getElem?_map, hstream, Option.map_some]
      obtain ⟨tasks', effs', htask', hview⟩ := taskStep_alike h.alike.view
        (not_replying_of_reading rfl hreading) (fun c' _ => hno' c') htask
      refine ⟨_, _, h.follow (y := ⟨w', .read c, effs',
        ⟨tasks', w'.unread.set c (purge p.hmac (keysOf p key) rest)⟩⟩) ?_ ?_ rfl ?_ ⟨hview, ?_⟩⟩
      · rintro stream' ⟨⟩
      · simp only [wireStep, hunread, purge_good hread, htask', Option.map_some]
      · simpa [Process.accepted] using h.accepted
      · simp only [List.map_set, h.alike.unread]
  | @hangsUp c stream fault tasks effs hstream hread htask =>
    have hreading := reading_of_hangUp htask
    have hunread : w'.unread[c]? = some stream := by
      rw [h.alike.unread, List.getElem?_map, hstream, Option.map_some, purge_error hread]
    obtain ⟨tasks', effs', htask', hview⟩ := taskStep_alike h.alike.view
      (not_replying_of_reading rfl hreading) (fun c' _ => hno' c') htask
    refine ⟨_, _, h.follow (y := ⟨w', .read c, effs', ⟨tasks', w'.unread⟩⟩) ?_ ?_ rfl ?_
      ⟨hview, h.alike.unread⟩⟩
    · rintro stream' ⟨⟩
    · simp only [wireStep, hunread, hread, htask', Option.map_some]
    · simpa [Process.accepted] using h.accepted
  | @goesOn e tasks effs hinside htask =>
    by_cases hbad : ∃ c t, e.conn = some c ∧ w.tasks.world.conns[c]? = some (.replyingHmac t)
    · obtain ⟨c, t, hconn, hc⟩ := hbad
      obtain rfl := reply_of_replying hinside hconn hc htask
      exact ⟨tr', w', h.skip (by simp [Process.accepted]) (view_reply_bad hsteady.writable hc htask) rfl⟩
    · obtain ⟨tasks', effs', htask', hview⟩ := taskStep_alike h.alike.view
        (fun c hconn t hc => hbad ⟨c, t, hconn, hc⟩) (fun c _ => hno' c) htask
      refine ⟨_, _, h.follow (y := ⟨w', .task e, effs', ⟨tasks', w'.unread⟩⟩) ?_ ?_ rfl ?_
        ⟨hview, h.alike.unread⟩⟩
      · rintro stream' ⟨⟩
      · simp only [wireStep, hinside, if_true, htask', Option.map_some]
      · simpa [Process.accepted] using h.accepted

/-- Every run is followed by one on the purged streams. -/
theorem followed (hr : WireRun p key tr w) : ∃ tr' w', Followed p key tr w tr' w' := by
  induction hr with
  | nil => exact ⟨[], _, .nil, rfl, ⟨rfl, rfl⟩, fun _ => rfl⟩
  | @snoc tr w e w₁ effs hr hproper hs ih =>
    obtain ⟨tr', w', h⟩ := ih
    exact followed_step (x := ⟨w, e, effs, w₁⟩) h (ledger hr).steady hproper (wireStep_stepped hs)

/-! ### And back -/

/-- There is a run on these streams which the run on the purged streams follows. -/
def Preceded (p : Config) (key : List UInt8) (streams : List (List UInt8)) (tr' : List WireEntry)
    (w' : Connected) : Prop :=
  ∃ tr w, WireRun p key tr w ∧ accepted tr = streams ∧ Followed p key tr w tr' w'

/-- There is one in which connection `c` is about to read `stream`. -/
def AtRead (p : Config) (key : List UInt8) (streams : List (List UInt8)) (c : ℕ) (stream : List UInt8)
    (tr' : List WireEntry) (w' : Connected) : Prop :=
  ∃ tr w, WireRun p key tr w ∧ accepted tr = streams ∧ Followed p key tr w tr' w' ∧
    w.tasks.world.conns[c]? = some .reading ∧ w.unread[c]? = some stream

variable {streams : List (List UInt8)} {stream rest : List UInt8} {cmd : RegisterCommand}

/-- A badly tagged command that is in hand is refused. -/
theorem atRead_of_replying (hr : WireRun p key tr w) (h : Followed p key tr w tr' w')
    (hc : w.tasks.world.conns[c]? = some (.replyingHmac t)) (hu : w.unread[c]? = some stream) :
    AtRead p key (accepted tr) c stream tr' w' := by
  have hwritable := (ledger hr).steady.writable
  obtain ⟨tasks, htask, hreading⟩ : ∃ tasks, taskStep p w.tasks (.run (.reply c)) = some (tasks, []) ∧
      tasks.world.conns[c]? = some .reading :=
    ⟨_, taskStep_reply (hwritable c) hc (Or.inl ⟨rfl, rfl⟩), getElem?_set_of hc⟩
  have hf := h.skip (x := ⟨w, .task (.run (.reply c)), [], ⟨tasks, w.unread⟩⟩)
    (by simp [Process.accepted]) (view_reply_bad hwritable hc htask) rfl
  refine ⟨_, _, .snoc hr ?_ ?_, ?_, hf, hreading, hu⟩
  · rintro stream' ⟨⟩
  · simp only [wireStep, TaskEvent.inside, if_true, htask, Option.map_some]
  · simp [Process.accepted]

/-- A badly tagged message is read, and refused if it is to be. -/
theorem AtRead.bad (h : AtRead p key streams c stream tr' w')
    (hread : deserializeRc p.hmac (keysOf p key) stream = .ok ((cmd, false), rest)) :
    AtRead p key streams c rest tr' w' := by
  obtain ⟨tr, w, hr, rfl, hf, hc, hu⟩ := h
  have htask : taskStep p w.tasks (.run (.receive c cmd false)) =
      some ({ w.tasks with world := w.tasks.world.receive p c cmd false }, []) := by
    rcases cmd with cmd | cmd <;> simp only [taskStep, Tasks.runs, step, hc, Option.map_some]
  have hs : wireStep p key w (.read c) = some (⟨{ w.tasks with
      world := w.tasks.world.receive p c cmd false }, w.unread.set c rest⟩, []) := by
    simp only [wireStep, hu, hread, htask, Option.map_some]
  have hr₁ := Run.snoc hr (by rintro stream' ⟨⟩) hs
  have hunread : (w.unread.set c rest).map (purge p.hmac (keysOf p key)) =
      w.unread.map (purge p.hmac (keysOf p key)) := by
    rw [List.map_set]
    exact set_same (by rw [List.getElem?_map, hu, Option.map_some, purge_bad hread])
  have hf₁ := hf.skip (x := ⟨w, .read c, [], ⟨_, w.unread.set c rest⟩⟩) (by simp [Process.accepted])
    (view_receive_bad htask) hunread
  rcases cmd with cmd | cmd
  · have h₁ := atRead_of_replying hr₁ hf₁ (getElem?_set_of hc) (getElem?_set_of hu)
    simpa [Process.accepted] using h₁
  · exact ⟨_, _, hr₁, by simp [Process.accepted], hf₁, hc, getElem?_set_of hu⟩

/-- What is in front of the next message with a valid tag can be dealt with. -/
theorem AtRead.drained (h : AtRead p key streams c stream tr' w') :
    ∃ stream, AtRead p key streams c stream tr' w' ∧
      ∀ cmd rest, deserializeRc p.hmac (keysOf p key) stream ≠ .ok ((cmd, false), rest) := by
  induction hn : stream.length using Nat.strong_induction_on generalizing stream with
  | _ n ih =>
    by_cases hbad : ∃ cmd rest, deserializeRc p.hmac (keysOf p key) stream = .ok ((cmd, false), rest)
    · obtain ⟨cmd, rest, hread⟩ := hbad
      exact ih rest.length (hn ▸ deserializeRc_shorter hread) (h.bad hread) rfl
    · exact ⟨stream, h, fun cmd rest hread => hbad ⟨cmd, rest, hread⟩⟩

theorem Preceded.atRead (h : Preceded p key streams tr' w')
    (hc' : w'.tasks.world.conns[c]? = some .reading) : ∃ stream, AtRead p key streams c stream tr' w' := by
  obtain ⟨tr, w, hr, rfl, hf⟩ := h
  have hview := hf.alike.conn c
  rw [hc', Option.map_some, Option.map_eq_some_iff] at hview
  obtain ⟨k, hc, hk⟩ := hview
  have hledger := ledger hr
  have hlt : c < w.unread.length := by
    rw [hledger.unread, ← hledger.conns]
    exact (List.getElem?_eq_some_iff.mp hc).1
  have hu := List.getElem?_eq_getElem hlt
  cases k with
  | reading => exact ⟨_, tr, w, hr, rfl, hf, hc, hu⟩
  | replyingHmac t => exact ⟨_, atRead_of_replying hr hf hc hu⟩
  | _ => cases hk

/-- A connection that is reading does nothing else. -/
theorem not_inside_of_reading {w w' : Tasks} {e : TaskEvent} (hinside : e.inside = true)
    (hconn : e.conn = some c) (hc : w.world.conns[c]? = some .reading) : taskStep p w e ≠ some (w', effs) := by
  rcases inside_conn hinside hconn with rfl | rfl | rfl
  · simp [taskStep, Tasks.runs, step, hc]
  · simp [taskStep, hc]
  · simp [taskStep, hc]

theorem preceded_accept {tasks' : Tasks} (h : Preceded p key streams tr' w')
    (hproper : Proper p.hmac (keysOf p key) p.nSectors stream)
    (htask' : taskStep p w'.tasks (.run .accept) = some (tasks', effs)) :
    Preceded p key (streams ++ [stream]) (tr' ++ [⟨w', .accept (purge p.hmac (keysOf p key) stream), effs,
      ⟨tasks', w'.unread ++ [purge p.hmac (keysOf p key) stream]⟩⟩])
      ⟨tasks', w'.unread ++ [purge p.hmac (keysOf p key) stream]⟩ := by
  obtain ⟨tr, w, hr, rfl, hf⟩ := h
  obtain ⟨tasks, effs₁, htask, hview⟩ := taskStep_alike hf.alike.view.symm (by simp [TaskEvent.conn])
    (by simp [TaskEvent.conn]) htask'
  have hr₁ := Run.snoc hr (fun stream' heq => WireEvent.accept.inj heq ▸ hproper)
    (show wireStep p key w (.accept stream) = some (⟨tasks, w.unread ++ [stream]⟩, effs₁) by
      simp only [wireStep, htask, Option.map_some])
  refine ⟨_, _, hr₁, by simp [Process.accepted], hf.follow
    (x := ⟨w, .accept stream, effs₁, ⟨tasks, w.unread ++ [stream]⟩⟩)
    (y := ⟨w', .accept (purge p.hmac (keysOf p key) stream), effs, ⟨tasks', _⟩⟩) ?_ ?_ rfl ?_
    ⟨hview.symm, ?_⟩⟩
  · rintro stream' ⟨⟩
    exact hproper.purge
  · simp only [wireStep, htask', Option.map_some]
  · simp only [Process.accepted, List.filterMap_append, List.map_append]
    exact congrArg (· ++ _) hf.accepted
  · simp only [List.map_append, hf.alike.unread]
    rfl

/-- A step of the purged run, from the step of a run on the streams. -/
theorem Followed.precede (hr : WireRun p key tr x.pre) (h : Followed p key tr x.pre tr' y.pre)
    (hx : ∀ stream, x.event ≠ .accept stream) (hsx : wireStep p key x.pre x.event = some (x.post, x.out))
    (hy : ∀ stream, y.event ≠ .accept stream) (hsy : wireStep p key y.pre y.event = some (y.post, y.out))
    (hconn : y.event.conn = x.event.conn) (halike : Alike p key x.post y.post) :
    Preceded p key (Process.accepted tr) (tr' ++ [y]) y.post := by
  have hsame : ∀ (l : List WireEntry) (z : WireEntry), (∀ stream, z.event ≠ .accept stream) →
      Process.accepted (l ++ [z]) = Process.accepted l := by
    rintro l ⟨pre, stream | c | e, out, post⟩ hz
    · exact absurd rfl (hz stream)
    · exact (accepted_append _ _).trans (List.append_nil _)
    · exact (accepted_append _ _).trans (List.append_nil _)
  refine ⟨_, _, .snoc hr (fun stream heq => absurd heq (hx stream)) hsx, hsame _ _ hx,
    h.follow (fun stream heq => absurd heq (hy stream)) hsy hconn ?_ halike⟩
  rw [hsame _ _ hx, hsame _ _ hy, h.accepted]

theorem preceded_step (h : Preceded p key streams tr' y.pre) (hr' : WireRun p key tr' y.pre)
    (hy : ∀ stream, y.event ≠ .accept stream) (hsy : wireStep p key y.pre y.event = some (y.post, y.out)) :
    Preceded p key streams (tr' ++ [y]) y.post := by
  have hs := wireStep_stepped hsy
  have hno' : ∀ (c : ℕ) (t : Ticket), y.pre.tasks.world.conns[c]? ≠ some (Conn.replyingHmac t) := by
    obtain ⟨tr, w, -, -, hf⟩ := h
    exact no_hmac_refusal hr' hf.accepted
  obtain ⟨w', e, effs, w₁'⟩ := y
  simp only at h hr' hy hsy hs hno'
  cases hs with
  | accepts => exact absurd rfl (hy _)
  | @receives c stream' rest' cmd ok tasks' effs hstream' hread' htask' =>
    obtain ⟨_, hat⟩ := h.atRead (reading_of_receive htask')
    obtain ⟨stream, ⟨tr, w, hr, rfl, hf, hc, hu⟩, hgood⟩ := hat.drained
    obtain rfl : purge p.hmac (keysOf p key) stream = stream' := by
      rw [hf.alike.unread, List.getElem?_map, hu] at hstream'
      exact Option.some.inj hstream'
    cases hread : deserializeRc p.hmac (keysOf p key) stream with
    | error fault =>
      rw [purge_error hread, hread] at hread'
      cases hread'
    | ok r =>
      obtain ⟨⟨cmd₁, _ | _⟩, rest⟩ := r
      · exact absurd hread (hgood cmd₁ rest)
      · rw [purge_good hread] at hread'
        obtain ⟨⟨rfl, rfl⟩, rfl⟩ : (cmd₁ = cmd ∧ true = ok) ∧ purge p.hmac (keysOf p key) rest = rest' := by
          simpa using hread'
        obtain ⟨tasks, effs₁, htask, hview⟩ := taskStep_alike hf.alike.view.symm (fun c' _ => hno' c')
          (not_replying_of_reading rfl hc) htask'
        refine hf.precede (x := ⟨w, .read c, effs₁, ⟨tasks, w.unread.set c rest⟩⟩)
          (y := ⟨w', .read c, effs, _⟩) hr (by rintro _ ⟨⟩) ?_ hy hsy rfl ⟨hview.symm, ?_⟩
        · simp only [wireStep, hu, hread, htask, Option.map_some]
        · simp only [List.map_set, hf.alike.unread]
  | @hangsUp c stream' fault tasks' effs hstream' hread' htask' =>
    obtain ⟨_, hat⟩ := h.atRead (reading_of_hangUp htask')
    obtain ⟨stream, ⟨tr, w, hr, rfl, hf, hc, hu⟩, hgood⟩ := hat.drained
    obtain rfl : purge p.hmac (keysOf p key) stream = stream' := by
      rw [hf.alike.unread, List.getElem?_map, hu] at hstream'
      exact Option.some.inj hstream'
    cases hread : deserializeRc p.hmac (keysOf p key) stream with
    | error fault =>
      obtain ⟨tasks, effs₁, htask, hview⟩ := taskStep_alike hf.alike.view.symm (fun c' _ => hno' c')
        (not_replying_of_reading rfl hc) htask'
      refine hf.precede (x := ⟨w, .read c, effs₁, ⟨tasks, w.unread⟩⟩) (y := ⟨w', .read c, effs, _⟩) hr
        (by rintro _ ⟨⟩) ?_ hy hsy rfl ⟨hview.symm, hf.alike.unread⟩
      simp only [wireStep, hu, hread, htask, Option.map_some]
    | ok r =>
      obtain ⟨⟨cmd₁, _ | _⟩, rest⟩ := r
      · exact absurd hread (hgood cmd₁ rest)
      · rw [purge_good hread] at hread'
        cases hread'
  | @goesOn e tasks' effs hinside htask' =>
    obtain ⟨tr, w, hr, rfl, hf⟩ := h
    have hno : ∀ c, e.conn = some c → ∀ t, w.tasks.world.conns[c]? ≠ some (Conn.replyingHmac t) := by
      intro c hconn t hc
      have hview := hf.alike.conn c
      rw [hc, Option.map_some, eq_comm, Option.map_eq_some_iff] at hview
      obtain ⟨k, hk, hkview⟩ := hview
      cases k with
      | reading => exact not_inside_of_reading hinside hconn hk htask'
      | replyingHmac t' => exact hno' c t' hk
      | _ => cases hkview
    obtain ⟨tasks, effs₁, htask, hview⟩ :=
      taskStep_alike hf.alike.view.symm (fun c _ => hno' c) hno htask'
    refine hf.precede (x := ⟨w, .task e, effs₁, ⟨tasks, w.unread⟩⟩) (y := ⟨w', .task e, effs, _⟩) hr
      (by rintro _ ⟨⟩) ?_ hy hsy rfl ⟨hview.symm, hf.alike.unread⟩
    simp only [wireStep, hinside, if_true, htask, Option.map_some]

/-- Every run on purged streams follows one. -/
theorem preceded (hr' : WireRun p key tr' w')
    (hproper : ∀ stream ∈ streams, Proper p.hmac (keysOf p key) p.nSectors stream)
    (haccepted : accepted tr' = streams.map (purge p.hmac (keysOf p key))) :
    Preceded p key streams tr' w' := by
  induction hr' generalizing streams with
  | nil =>
    obtain rfl := List.map_eq_nil_iff.mp haccepted.symm
    exact ⟨[], _, .nil, rfl, .nil, rfl, ⟨rfl, rfl⟩, fun _ => rfl⟩
  | @snoc tr' w' e w₁' effs hr' hproper' hs ih =>
    rw [accepted_append] at haccepted
    cases e with
    | accept stream' =>
      -- the stream that has been purged is the last one
      obtain ⟨before, last, rfl, hbefore, hlast⟩ := List.append_eq_map_iff.mp haccepted
      obtain ⟨stream, rfl, rfl⟩ := List.map_eq_singleton_iff.mp hlast
      have hprec := ih (fun s hs => hproper s (List.mem_append_left _ hs)) hbefore.symm
      rw [wireStep] at hs
      obtain ⟨⟨tasks', effs'⟩, htask', heq⟩ := Option.map_eq_some_iff.mp hs
      obtain ⟨rfl, rfl⟩ := Prod.mk.inj heq
      exact preceded_accept hprec (hproper stream (by simp)) htask'
    | read c | task e =>
      have hsame : accepted tr' = streams.map (purge p.hmac (keysOf p key)) := by
        simpa [Process.accepted] using haccepted
      exact preceded_step (ih hproper hsame) hr' (by rintro _ ⟨⟩) hs

/-- What there is to observe of the registers: what each connection has delivered, and then the workers with
    their queues and registers, the permits, and the workers that have panicked. -/
structure Observation where
  delivered : ℕ → List (ℕ × RegisterCommand)
  workers : List Worker
  guards : List ℕ
  dead : List ℕ

def observed (tr : List WireEntry) (w : Connected) : Observation where
  delivered c := deliveredBy c tr
  workers := w.tasks.world.workers.map Worker.view
  guards := w.tasks.world.guards
  dead := w.tasks.dead

/-- What can be observed when these streams have arrived. -/
def Observable (p : Config) (key : List UInt8) (streams : List (List UInt8)) (o : Observation) : Prop :=
  ∃ tr w, WireRun p key tr w ∧ accepted tr = streams ∧ observed tr w = o

theorem Followed.observed (h : Followed p key tr w tr' w') :
    Process.observed tr' w' = Process.observed tr w := by
  have hworkers := congrArg (fun v => v.world.workers) h.alike.view
  have hguards := congrArg (fun v => v.world.guards) h.alike.view
  have hdead := congrArg Tasks.dead h.alike.view
  simp only [Tasks.view, World.view] at hworkers hguards hdead
  simp only [Process.observed, h.delivered, hworkers, hguards, hdead]

/-- CORRECT (badly tagged and misdirected messages): at every point of every run, what a connection has
    delivered and refused is what the messages handled on it are to become. So what can be observed of the
    registers is the same without the badly tagged messages. -/
theorem tampering_without_influence (p : Config) (key : List UInt8) :
    (∀ tr w, WireRun p key tr w → ∀ c stream, (accepted tr)[c]? = some stream →
      ∃ handled inHand, Filtered p key c stream tr w handled inHand) ∧
    ∀ streams, (∀ stream ∈ streams, Proper p.hmac (keysOf p key) p.nSectors stream) →
      ∀ o, Observable p key streams o ↔ Observable p key (streams.map (purge p.hmac (keysOf p key))) o := by
  refine ⟨fun tr w hr => (ledger hr).filtered, fun streams hproper o => ⟨?_, ?_⟩⟩
  · rintro ⟨tr, w, hr, rfl, rfl⟩
    obtain ⟨tr', w', h⟩ := followed hr
    exact ⟨tr', w', h.run, h.accepted, h.observed⟩
  · rintro ⟨tr', w', hr', haccepted, rfl⟩
    obtain ⟨tr, w, hr, rfl, h⟩ := preceded hr' hproper haccepted
    exact ⟨tr, w, hr, rfl, h.observed.symm⟩

/-- A read with a forged tag. -/
def forgedRead : List UInt8 := (serializeRc sumHmac (.client readRequest) []).take 24 ++ List.replicate 32 1

/-- It, and then the read itself. -/
def forgedThenRead : List UInt8 := forgedRead ++ serializeRc sumHmac (.client readRequest) []

theorem forgedThenRead_proper :
    Proper oneSector.hmac (keysOf oneSector []) oneSector.nSectors forgedThenRead := by
  have hforged : deserializeRc sumHmac ⟨[], []⟩ forgedThenRead =
      .ok ((.client readRequest, false), serializeRc sumHmac (.client readRequest) []) := rfl
  have hread : deserializeRc sumHmac ⟨[], []⟩ (serializeRc sumHmac (.client readRequest) []) =
      .ok ((.client readRequest, true), []) := rfl
  refine .cons hforged ?_ (.cons hread ?_ .nil)
  · rintro cmd ⟨⟩
  · rintro cmd ⟨⟩

/-- The forged read is refused, and the read delivered. -/
def refuseThenDeliver : List WireEvent :=
  [.accept forgedThenRead, .read 0, .task (.run (.reply 0)), .read 0, .task (.run (.acquire 0)),
    .task (.run (.send 0))]

/-- A run on given events. -/
theorem wireRun_of_exec {es : List WireEvent}
    (hexec : exec (wireStep p key) ⟨initTasks p, []⟩ es = some (tr, w))
    (hproper : ∀ stream ∈ es.filterMap WireEvent.stream, Proper p.hmac (keysOf p key) p.nSectors stream) :
    WireRun p key tr w ∧ accepted tr = es.filterMap WireEvent.stream := by
  have haccepted : accepted tr = es.filterMap WireEvent.stream := by
    rw [accepted_eq, exec_events hexec]
  refine ⟨Run.of_exec hexec fun x hx stream heq => hproper stream ?_, haccepted⟩
  rw [← haccepted]
  exact List.mem_filterMap.mpr ⟨x, hx, by rw [heq]; rfl⟩

end runs

section run
-- sectors of 4096 bytes are compared byte by byte when a concrete run is replayed
set_option maxRecDepth 40000

theorem forgedRead_without_influence : ∃ tr w, WireRun oneSector [] tr w ∧
    accepted tr = [forgedThenRead] ∧
    (∃ handled inHand, Filtered oneSector [] 0 forgedThenRead tr w handled inHand) ∧
    Observable oneSector [] [purge sumHmac ⟨[], []⟩ forgedThenRead] (observed tr w) := by
  obtain ⟨⟨tr, w⟩, hexec⟩ := Option.isSome_iff_exists.mp
    (show (exec (wireStep oneSector []) ⟨initTasks oneSector, []⟩ refuseThenDeliver).isSome = true by
      decide +kernel)
  obtain ⟨hr, haccepted⟩ : WireRun oneSector [] tr w ∧ accepted tr = [forgedThenRead] :=
    wireRun_of_exec hexec (List.forall_mem_singleton.mpr forgedThenRead_proper)
  obtain ⟨hfiltered, hsame⟩ := tampering_without_influence oneSector []
  have hpurged := (hsame [forgedThenRead] (by simpa using forgedThenRead_proper) (observed tr w)).mp
    ⟨tr, w, hr, haccepted, rfl⟩
  exact ⟨tr, w, hr, haccepted, hfiltered tr w hr 0 _ (by rw [haccepted]; rfl), hpurged⟩

end run

/-! ### Without the messages alone -/

section excise

variable {h : Hmac} {keys : Keys} {stream rest : List UInt8} {cmd : RegisterCommand} {ok : Bool}

/-- The stream without the messages that have a bad tag; the bytes that are skipped in front of them stay. -/
def excise (h : Hmac) (keys : Keys) (stream : List UInt8) : List UInt8 :=
  match hs : deserializeRc h keys stream with
  | .ok ((cmd, ok), rest) =>
    have : rest.length < stream.length := deserializeRc_shorter hs
    let read := stream.take (stream.length - rest.length)
    (if ok = true then read else read.take (read.length - (contentEnd (typeOf cmd) + 32))) ++ excise h keys rest
  | .error _ => stream
  termination_by stream.length

theorem excise_ok (hs : deserializeRc h keys stream = .ok ((cmd, ok), rest)) :
    excise h keys stream =
      (if ok = true then stream.take (stream.length - rest.length)
        else (stream.take (stream.length - rest.length)).take
          ((stream.take (stream.length - rest.length)).length - (contentEnd (typeOf cmd) + 32))) ++
        excise h keys rest := by
  rw [excise]
  split
  · rename_i hs'
    rw [hs] at hs'
    cases hs'
    rfl
  · rename_i hs'
    rw [hs] at hs'
    cases hs'

theorem excise_nil : excise h keys [] = [] := by
  rw [excise]
  split
  · rename_i hs
    exact absurd (deserializeRc_shorter hs) (Nat.not_lt_zero _)
  · rfl

/-- Nothing is delivered from a stream that has nothing but one badly tagged message. -/
theorem nothing_delivered {p : Config} {key : List UInt8} {tr : List WireEntry} {w : Connected}
    (hr : WireRun p key tr w) (haccepted : accepted tr = [stream])
    (hbad : deserializeRc p.hmac (keysOf p key) stream = .ok ((cmd, false), rest))
    (hend : deserializeRc p.hmac (keysOf p key) rest = .error .unexpectedEof) : deliveredBy 0 tr = [] := by
  obtain ⟨handled, inHand, hf⟩ := (ledger hr).filtered 0 stream (by rw [haccepted]; rfl)
  obtain ⟨k, unread, -, -, hdecodes, -⟩ := hf.read
  have hread : ∀ m ∈ readBy p key 0 tr, m = (cmd, false) := by
    cases hms : readBy p key 0 tr with
    | nil => simp
    | cons m ms =>
      rw [hms] at hdecodes
      obtain ⟨stream', hfirst, hdecodes⟩ := hdecodes
      obtain ⟨rfl, rfl⟩ := Prod.mk.inj (Except.ok.inj (hbad.symm.trans hfirst))
      cases ms with
      | nil => simp
      | cons m' ms =>
        obtain ⟨_, hsecond, -⟩ := hdecodes
        rw [hend] at hsecond
        cases hsecond
  rw [hf.delivered, List.filterMap_eq_nil_iff]
  intro m hm
  rw [hread m (by rw [hf.messages]; exact List.mem_append_left _ hm)]
  simp [route]

/-- The forged read behind the first half of a magic number, and then the read behind the other half with a type. -/
def forgedInHeader : List UInt8 :=
  [0x61, 0x74] ++ forgedRead ++ ([0x64, 0x64, 0, 0, 0, 1] ++ serializeRc sumHmac (.client readRequest) [])

theorem forgedInHeader_read : deserializeRc sumHmac ⟨[], []⟩ forgedInHeader =
    .ok ((.client readRequest, false),
      [0x64, 0x64, 0, 0, 0, 1] ++ serializeRc sumHmac (.client readRequest) []) := rfl

theorem forgedInHeader_second : deserializeRc sumHmac ⟨[], []⟩
    ([0x64, 0x64, 0, 0, 0, 1] ++ serializeRc sumHmac (.client readRequest) []) =
    .ok ((.client readRequest, true), []) := rfl

/-- Without the forged read there is a header in front of the read. -/
theorem excise_forgedInHeader : excise sumHmac ⟨[], []⟩ forgedInHeader =
    [0x61, 0x74, 0x64, 0x64, 0, 0, 0, 1] ++ serializeRc sumHmac (.client readRequest) [] := by
  rw [excise_ok forgedInHeader_read, excise_ok forgedInHeader_second, excise_nil]
  rfl

theorem forgedInHeader_proper :
    Proper oneSector.hmac (keysOf oneSector []) oneSector.nSectors forgedInHeader := by
  refine .cons forgedInHeader_read ?_ (.cons forgedInHeader_second ?_ .nil)
  · rintro cmd ⟨⟩
  · rintro cmd ⟨⟩

end excise

section run
set_option maxRecDepth 40000

/-- With the badly tagged messages deleted, but not the bytes that are skipped in front of them, other things
    can be observed: the read is not delivered any more. -/
theorem excised_not_alike : ¬ ∀ (p : Config) (key : List UInt8) (streams : List (List UInt8)),
    (∀ stream ∈ streams, Proper p.hmac (keysOf p key) p.nSectors stream) →
      ∀ o, Observable p key streams o ↔ Observable p key (streams.map (excise p.hmac (keysOf p key))) o := by
  intro hall
  have hexec : (exec (wireStep oneSector []) ⟨initTasks oneSector, []⟩
      (.accept forgedInHeader :: refuseThenDeliver.tail)).any (fun r =>
        decide (deliveredBy 0 r.1 = [(0, .client readRequest)])) = true := by decide +kernel
  obtain ⟨⟨tr, w⟩, hexec, hdelivered⟩ := (Option.any_eq_true ..).mp hexec
  obtain ⟨hr, haccepted⟩ : WireRun oneSector [] tr w ∧ accepted tr = [forgedInHeader] :=
    wireRun_of_exec hexec (List.forall_mem_singleton.mpr forgedInHeader_proper)
  obtain ⟨tr', w', hr', haccepted', hobserved⟩ := (hall oneSector [] [forgedInHeader]
    (List.forall_mem_singleton.mpr forgedInHeader_proper) (observed tr w)).mp ⟨tr, w, hr, haccepted, rfl⟩
  rw [List.map_singleton, show excise oneSector.hmac (keysOf oneSector []) forgedInHeader = _ from
    excise_forgedInHeader] at haccepted'
  have hsame : deliveredBy 0 tr' = deliveredBy 0 tr := congrFun (congrArg Observation.delivered hobserved) 0
  rw [nothing_delivered hr' haccepted' rfl rfl, of_decide_eq_true hdelivered] at hsame
  cases hsame

end run

end AtomicDisk.Process
