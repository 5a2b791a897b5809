import AtomicDisk.Client.RegisterClient

/-! Where commands go. A command that `send` is given for a process is only ever in channels that lead to that
    process, one that `broadcast` is given in channels to all processes: with `Q t m` for "command `m` is for
    process `t`", everything in the client is where it belongs (`Bound`), and every step keeps it there. -/

namespace AtomicDisk.Client
open Schemes

variable {α : Type} {Q Q' : UInt8 → α → Prop} {selfIdent n t : UInt8} {w w' : World α} {e : Event α} {m : α}

/-- The process that a channel leads to. -/
def Channel.target (selfIdent : UInt8) : Channel → UInt8
  | .self => selfIdent
  | .connection t => t
  | .retransmission t => t

/-- Every command on the way to process `t` is for it. -/
structure LinkBound (Q : UInt8 → α → Prop) (t : UInt8) (k : Link α) : Prop where
  connection : ∀ m ∈ k.connection, Q t m
  retransmission : ∀ m ∈ k.retransmission, Q t m
  held : ∀ m ∈ k.held, Q t m

/-- Every command in the client is in channels to the processes that it is for. -/
structure Bound (selfIdent : UInt8) (Q : UInt8 → α → Prop) (w : World α) : Prop where
  calls : ∀ ps ∈ w.calls, ∀ push ∈ ps, Q (push.channel.target selfIdent) push.cmd
  links : ∀ t, LinkBound Q t (w.links t)
  self : ∀ m ∈ w.selfQueue, Q selfIdent m

theorem bound_init : Bound selfIdent Q (init : World α) := by
  refine ⟨by simp [init], fun t => ?_, by simp [init]⟩
  constructor <;> simp [init]

theorem Bound.imp (h : Bound selfIdent Q w) (himp : ∀ t m, Q t m → Q' t m) : Bound selfIdent Q' w := by
  refine ⟨fun ps hps push hpush => himp _ _ (h.calls ps hps push hpush), fun t => ?_,
    fun m hm => himp _ _ (h.self m hm)⟩
  have hlink := h.links t
  exact ⟨fun m hm => himp _ _ (hlink.connection m hm), fun m hm => himp _ _ (hlink.retransmission m hm),
    fun m hm => himp _ _ (hlink.held m hm)⟩

/-- `send` chooses channels that lead to the target. -/
theorem send_target {ps : List (Push α)} (hs : (RegisterClientState.new selfIdent n).send m t = some ps) :
    ∀ push ∈ ps, push.channel.target selfIdent = t ∧ push.cmd = m := by
  have hch := new_channels selfIdent n t
  simp only [RegisterClientState.send, Option.bind_eq_bind, Option.bind_eq_some_iff, Option.some.injEq] at hs
  obtain ⟨c, hc, c', hc', rfl⟩ := hs
  simp only [RegisterClientState.channels, hc, hc'] at hch
  intro push hpush
  split at hch
  · rename_i ht
    obtain ⟨rfl, rfl⟩ : c = .self ∧ c' = .self := by simpa using hch
    obtain rfl | rfl : push = ⟨.self, m⟩ ∨ push = ⟨.self, m⟩ := by simpa using hpush
    · exact ⟨ht.symm, rfl⟩
    · exact ⟨ht.symm, rfl⟩
  · split at hch
    · obtain ⟨rfl, rfl⟩ : c = .connection t ∧ c' = .retransmission t := by simpa using hch
      obtain rfl | rfl : push = ⟨.connection t, m⟩ ∨ push = ⟨.retransmission t, m⟩ := by simpa using hpush
      · exact ⟨rfl, rfl⟩
      · exact ⟨rfl, rfl⟩
    · simp at hch

theorem sendAll_target {targets : List UInt8} {ps : List (Push α)}
    (hs : (RegisterClientState.new selfIdent n).sendAll m targets = some ps) :
    ∀ push ∈ ps, push.channel.target selfIdent ∈ targets ∧ push.cmd = m := by
  induction targets generalizing ps with
  | nil =>
    obtain rfl : [] = ps := Option.some.inj hs
    simp
  | cons t targets ih =>
    simp only [RegisterClientState.sendAll, Option.bind_eq_bind, Option.bind_eq_some_iff,
      Option.some.injEq] at hs
    obtain ⟨first, hfirst, rest, hrest, rfl⟩ := hs
    intro push hpush
    rcases List.mem_append.mp hpush with hpush | hpush
    · obtain ⟨htarget, hcmd⟩ := send_target hfirst push hpush
      exact ⟨htarget ▸ List.mem_cons_self .., hcmd⟩
    · obtain ⟨htarget, hcmd⟩ := ih hrest push hpush
      exact ⟨List.mem_cons_of_mem _ htarget, hcmd⟩

theorem Bound.setLink (h : Bound selfIdent Q w) {k : Link α} (hk : LinkBound Q t k) :
    Bound selfIdent Q (w.setLink t k) := by
  refine ⟨h.calls, fun t' => ?_, h.self⟩
  by_cases ht : t' = t
  · rw [ht, w.setLink_same]
    exact hk
  · rw [w.setLink_ne k ht]
    exact h.links t'

theorem Bound.enqueue {push : Push α} (h : Bound selfIdent Q w)
    (hpush : Q (push.channel.target selfIdent) push.cmd) : Bound selfIdent Q (w.enqueue push) := by
  obtain ⟨channel, cmd⟩ := push
  cases channel with
  | self => exact ⟨h.calls, h.links, forall_mem_snoc h.self hpush⟩
  | connection t =>
    have hk := h.links t
    exact h.setLink ⟨forall_mem_snoc hk.connection hpush, hk.retransmission, hk.held⟩
  | retransmission t =>
    have hk := h.links t
    exact h.setLink ⟨hk.connection, forall_mem_snoc hk.retransmission hpush, hk.held⟩

/-- What the event gives to the client is for the processes it is given for. -/
def Given (n : UInt8) (Q : UInt8 → α → Prop) : Event α → Prop
  | .send m t => Q t m
  | .broadcast m => ∀ t, 1 ≤ t → t ≤ n → Q t m
  | _ => True

theorem bound_step {o : Unit} (h : Bound selfIdent Q w) (he : Given n Q e)
    (hs : step (.new selfIdent n) w e = some (w', o)) : Bound selfIdent Q w' := by
  cases e with
  | send m t =>
    obtain ⟨ps, hps, heq⟩ := Option.map_eq_some_iff.mp hs
    obtain ⟨rfl, -⟩ := Prod.mk.inj heq
    refine ⟨forall_mem_snoc h.calls fun push hpush => ?_, h.links, h.self⟩
    obtain ⟨htarget, hcmd⟩ := send_target hps push hpush
    rw [htarget, hcmd]
    exact he
  | broadcast m =>
    obtain ⟨ps, hps, heq⟩ := Option.map_eq_some_iff.mp hs
    obtain ⟨rfl, -⟩ := Prod.mk.inj heq
    refine ⟨forall_mem_snoc h.calls fun push hpush => ?_, h.links, h.self⟩
    obtain ⟨htarget, hcmd⟩ := sendAll_target hps push hpush
    obtain ⟨h1, hn⟩ := mem_targets.mp htarget
    rw [hcmd]
    exact he _ h1 hn
  | push i =>
    simp only [step] at hs
    split at hs
    · rename_i push ps hi
      obtain ⟨rfl, -⟩ := Prod.mk.inj (Option.some.inj hs)
      have hcall := h.calls _ (List.mem_of_getElem? hi)
      have hq := h.enqueue (hcall push (List.mem_cons_self ..))
      refine ⟨fun qs hqs => ?_, hq.links, hq.self⟩
      rcases List.mem_or_eq_of_mem_set hqs with hqs | rfl
      · exact h.calls qs hqs
      · exact fun q hmem => hcall q (List.mem_cons_of_mem _ hmem)
    · simp at hs
  | write t ok =>
    simp only [step] at hs
    split at hs
    · simp at hs
    · rename_i m queue hqueue
      obtain ⟨rfl, -⟩ := Prod.mk.inj (Option.some.inj hs)
      have hk := h.links t
      exact h.setLink ⟨fun x hx => hk.connection x (hqueue ▸ List.mem_cons_of_mem _ hx), hk.retransmission,
        hk.held⟩
  | tick t =>
    obtain ⟨rfl, -⟩ := Prod.mk.inj (Option.some.inj hs)
    have hk := h.links t
    refine h.setLink ⟨fun x hx => ?_, hk.retransmission, hk.held⟩
    rcases List.mem_append.mp hx with hx | hx
    · exact hk.connection x hx
    · exact hk.held x (Option.mem_toList.mp hx)
  | take t =>
    simp only [step] at hs
    split at hs
    · simp at hs
    · rename_i m queue hqueue
      obtain ⟨rfl, -⟩ := Prod.mk.inj (Option.some.inj hs)
      have hk := h.links t
      refine h.setLink ⟨hk.connection, fun x hx => hk.retransmission x (hqueue ▸ List.mem_cons_of_mem _ hx), ?_⟩
      rintro x ⟨⟩
      exact hk.retransmission m (hqueue ▸ List.mem_cons_self ..)
  | selfReceive =>
    simp only [step] at hs
    split at hs
    · simp at hs
    · rename_i m queue hqueue
      obtain ⟨rfl, -⟩ := Prod.mk.inj (Option.some.inj hs)
      exact ⟨h.calls, h.links, fun x hx => h.self x (hqueue ▸ List.mem_cons_of_mem _ hx)⟩

end AtomicDisk.Client
