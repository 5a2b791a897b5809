import AtomicDisk.Schemes.Buffer
import Mathlib.Tactic.Common

/-! The driver's list of processes (`parse_args.c`): `parse_atdd_addrs` reads `ip:port,ip:port,…` into an array
    of 32 entries on its stack.

                   ':'  addrs[n].ip_addr := …
        address ────────────────▶ port ──── NUL: n + 1 entries
          │ ▲                      │
          │ └──────────────────────┘
          │   ','  addrs[n++].port := …
         NUL: -EINVAL

    Any other character is skipped, and it is only there that the number of entries is compared with the
    limit. An access outside the array is `none`. The argument is given by its characters up to the NUL. -/

namespace AtomicDisk.Driver
open Schemes

/-- `MAX_PROCESSES`. -/
def maxProcesses : ℕ := 32

/-- The error codes of `parse_atdd_addrs`, without their sign. -/
inductive ParseErrno where
  | einval
  | erange
  | enomem
  deriving DecidableEq

/-- `struct tcp_addr_info`. -/
structure TcpAddrInfo where
  ipAddr : UInt32
  port : ℤ

/-- What `parse_atdd_addrs` sets in `struct atdd_client_config`; `none` is a null pointer. -/
structure AtddClientConfig where
  atddAddrs : Option (List TcpAddrInfo)
  addrsCount : ℕ

/-! ### Numbers -/

def isDigit (c : UInt8) : Bool := '0'.toUInt8 ≤ c && c ≤ '9'.toUInt8

/-- `_kstrtoull` in base 10: digits, then perhaps a newline. -/
def kstrtoull (s : List UInt8) : Except ParseErrno ℕ :=
  let digits := s.takeWhile isDigit
  let value := digits.foldl (fun v d => v * 10 + (d.toNat - '0'.toNat)) 0
  if 2 ^ 64 ≤ value then .error .erange
  else if digits = [] then .error .einval
  else if s.drop digits.length = [] ∨ s.drop digits.length = ['\n'.toUInt8] then .ok value
  else .error .einval

/-- `kstrtoint` in base 10: a sign, then a number that an `int` holds. -/
def kstrtoint (s : List UInt8) : Except ParseErrno ℤ := do
  let value ←
    if s.head? = some '-'.toUInt8 then (kstrtoull s.tail).map fun v => -(v : ℤ)
    else if s.head? = some '+'.toUInt8 then (kstrtoull s.tail).map fun v => (v : ℤ)
    else (kstrtoull s).map fun v => (v : ℤ)
  if -2 ^ 31 ≤ value ∧ value < 2 ^ 31 then .ok value else .error .erange

/-! ### The list -/

def colon : UInt8 := ':'.toUInt8

def comma : UInt8 := ','.toUInt8

abbrev Addrs := Block TcpAddrInfo maxProcesses

/-- `kstrtoint(parse_begin, 10, &(addrs[addrs_count++].port))`, and what is done if it succeeds. -/
def readPort (addrs : Addrs) (addrsCount : ℕ) (text : List UInt8)
    (next : Addrs → ℕ → Option (Except ParseErrno (Addrs × ℕ))) : Option (Except ParseErrno (Addrs × ℕ)) :=
  match kstrtoint text with
  | .error err => some (.error err)
  | .ok port => (addrs.modify addrsCount fun a => { a with port }).bind fun addrs => next addrs (addrsCount + 1)

section parse

-- the kernel's `in_aton`, which makes an address of any text
variable (inAton : List UInt8 → UInt32)

/-- The loop of `parse_atdd_addrs`. `text` is what lies between `parse_begin` and `parse_end`, and `i` tells
    whether a port is being read. -/
def parseLoop : List UInt8 → List UInt8 → Bool → Addrs → ℕ → Option (Except ParseErrno (Addrs × ℕ))
  | [], text, i, addrs, addrsCount =>
    if i then readPort addrs addrsCount text fun addrs addrsCount => some (.ok (addrs, addrsCount))
    else some (.error .einval)
  | c :: rest, text, i, addrs, addrsCount =>
    if c = colon ∧ i = false then
      (addrs.modify addrsCount fun a => { a with ipAddr := inAton text }).bind fun addrs =>
        parseLoop rest [] true addrs addrsCount
    else if c = comma ∧ i = true then
      readPort addrs addrsCount text fun addrs addrsCount => parseLoop rest [] false addrs addrsCount
    else if maxProcesses < addrsCount then some (.error .einval)
    else parseLoop rest (text ++ [c]) i addrs addrsCount

/-- `parse_atdd_addrs`, with the array as the stack happens to hold it, and whether `kmalloc` succeeds. -/
def parseAtddAddrs (addrs : Addrs) (allocated : Bool) (config : AtddClientConfig)
    (atddAddrsDesc : List UInt8) : Option (Except ParseErrno Unit × AtddClientConfig) :=
  (parseLoop inAton atddAddrsDesc [] false addrs 0).bind fun
    | .error err => some (.error err, config)
    | .ok (addrs, addrsCount) =>
      if allocated then
        (addrs.load 0 addrsCount).map fun entries => (.ok (), ⟨some entries, addrsCount⟩)
      else some (.error .enomem, ⟨none, addrsCount⟩)

/-! ### The items of the argument -/

/-- The `ip:port` items of the argument: its comma-separated parts that have a colon. -/
def itemsOf (desc : List UInt8) : List (List UInt8) :=
  (desc.splitOn comma).filter fun part => colon ∈ part

/-- The text behind the first colon. -/
def portText (item : List UInt8) : List UInt8 := (item.dropWhile (· ≠ colon)).tail

/-- Why a port is rejected. -/
def portError (text : List UInt8) : Option ParseErrno :=
  match kstrtoint text with
  | .error err => some err
  | .ok _ => none

/-- The port texts of comma-separated parts. -/
def portsOf (parts : List (List UInt8)) : List (List UInt8) :=
  (parts.filter fun part => colon ∈ part).map portText

/-- Whether the last part has a colon. -/
def endsInItem (parts : List (List UInt8)) : Bool := parts.getLast?.any fun part => colon ∈ part

variable {c : UInt8} {parts : List (List UInt8)} {text : List UInt8}

theorem splitOn_cons (c : UInt8) (rest : List UInt8) : (c :: rest).splitOn comma =
    if c = comma then [] :: rest.splitOn comma else (rest.splitOn comma).modifyHead (List.cons c) := by
  simp only [List.splitOn, List.splitOnP_cons_eq_if_modifyHead, beq_iff_eq]

theorem portsOf_cons_nil (parts : List (List UInt8)) : portsOf ([] :: parts) = portsOf parts := by
  simp [portsOf]

theorem portsOf_cons_colon (text : List UInt8) (parts : List (List UInt8)) :
    portsOf ((colon :: text) :: parts) = text :: portsOf parts := by
  simp [portsOf, portText]

/-- A character in front of the first part, if it is no colon, is no part of a port. -/
theorem portsOf_modifyHead (hc : c ≠ colon) : portsOf (parts.modifyHead (List.cons c)) = portsOf parts := by
  cases parts with
  | nil => rfl
  | cons part parts =>
    simp only [portsOf, List.modifyHead_cons, List.filter_cons, List.mem_cons, hc.symm, false_or]
    split
    · simp [portText, hc]
    · rfl

theorem endsInItem_cons (hparts : parts ≠ []) (part : List UInt8) :
    endsInItem (part :: parts) = endsInItem parts := by
  obtain ⟨part', parts', rfl⟩ := List.exists_cons_of_ne_nil hparts
  rw [endsInItem, List.getLast?_cons_cons, endsInItem]

theorem endsInItem_modifyHead (hc : c ≠ colon) :
    endsInItem (parts.modifyHead (List.cons c)) = endsInItem parts := by
  cases parts with
  | nil => rfl
  | cons part parts =>
    cases parts with
    | nil => simp [endsInItem, hc.symm]
    | cons part' parts =>
      have hne : part' :: parts ≠ [] := List.cons_ne_nil _ _
      rw [List.modifyHead_cons, endsInItem_cons hne, endsInItem_cons hne]

/-! ### The loop, item by item -/

/-- What the loop returns for the ports that are left: the first that is no number ends it, and one behind the
    last entry of the array breaks it. -/
def settle (ends : Bool) : List (List UInt8) → ℕ → Option (Except ParseErrno ℕ)
  | [], addrsCount => some (if ends then .ok addrsCount else .error .einval)
  | port :: ports, addrsCount =>
    if addrsCount < maxProcesses then
      (portError port).elim (settle ends ports (addrsCount + 1)) fun err => some (.error err)
    else none

/-- The result of the loop without the array. -/
def counted (r : Option (Except ParseErrno (Addrs × ℕ))) : Option (Except ParseErrno ℕ) :=
  r.map fun res => res.map Prod.snd

/-- Reading a port, and going on with the next item. -/
theorem counted_readPort {addrs : Addrs} {addrsCount : ℕ} (h : addrsCount < maxProcesses)
    {next : Addrs → ℕ → Option (Except ParseErrno (Addrs × ℕ))} {v : Option (Except ParseErrno ℕ)}
    (hnext : ∀ addrs, counted (next addrs (addrsCount + 1)) = v) :
    counted (readPort addrs addrsCount text next) = (portError text).elim v fun err => some (.error err) := by
  unfold readPort portError
  cases kstrtoint text with
  | error err => rfl
  | ok port =>
    obtain ⟨addrs', hmod⟩ := addrs.modify_isSome (fun a => { a with port }) h
    simp only [hmod, Option.bind_some, Option.elim_none]
    exact hnext addrs'

/-- The loop depends on the rest of the argument only through the ports in it. -/
theorem counted_parseLoop (rest : List UInt8) :
    (∀ text addrs addrsCount, addrsCount ≤ maxProcesses →
      counted (parseLoop inAton rest text false addrs addrsCount) =
        settle (endsInItem (rest.splitOn comma)) (portsOf (rest.splitOn comma)) addrsCount) ∧
    ∀ text addrs addrsCount, addrsCount < maxProcesses →
      counted (parseLoop inAton rest text true addrs addrsCount) =
        settle (endsInItem ((rest.splitOn comma).modifyHead (colon :: text ++ ·)))
          (portsOf ((rest.splitOn comma).modifyHead (colon :: text ++ ·))) addrsCount := by
  induction rest with
  | nil =>
    refine ⟨fun text addrs addrsCount _ => rfl, fun text addrs addrsCount h => ?_⟩
    rw [parseLoop, if_pos rfl, counted_readPort (v := some (.ok (addrsCount + 1))) h fun _ => rfl,
      List.splitOn_nil, List.modifyHead_cons,
      List.append_nil, portsOf_cons_colon, settle, if_pos h]
    simp [portsOf, settle, endsInItem]
  | cons c rest ih =>
    have hne : rest.splitOn comma ≠ [] := List.splitOnP_ne_nil _ _
    constructor
    · intro text addrs addrsCount h
      rw [parseLoop, splitOn_cons]
      by_cases hcolon : c = colon
      · -- the address of the next item goes into the array, if there is an entry for it
        have hcomma : c ≠ comma := by rw [hcolon]; decide
        rw [if_pos ⟨hcolon, rfl⟩, if_neg hcomma, hcolon]
        by_cases hroom : addrsCount < maxProcesses
        · obtain ⟨addrs', hmod⟩ := addrs.modify_isSome (fun a => { a with ipAddr := inAton text }) hroom
          rw [hmod, Option.bind_some]
          exact ih.2 [] addrs' addrsCount hroom
        · obtain ⟨part, parts, hparts⟩ := List.exists_cons_of_ne_nil hne
          rw [addrs.modify_eq_none _ (not_lt.mp hroom), hparts, List.modifyHead_cons, portsOf_cons_colon,
            settle, if_neg hroom]
          rfl
      · rw [if_neg fun h => hcolon h.1, if_neg (by simp), if_neg (by omega), ih.1 _ _ _ h]
        split
        · rw [endsInItem_cons hne, portsOf_cons_nil]
        · rw [endsInItem_modifyHead hcolon, portsOf_modifyHead hcolon]
    · intro text addrs addrsCount h
      rw [parseLoop, if_neg (by simp), splitOn_cons]
      by_cases hcomma : c = comma
      · rw [if_pos ⟨hcomma, rfl⟩, if_pos hcomma, counted_readPort h fun addrs => ih.1 _ _ _ h,
          List.modifyHead_cons, List.append_nil, endsInItem_cons hne, portsOf_cons_colon, settle, if_pos h]
      · rw [if_neg fun h => hcomma h.1, if_neg hcomma, if_neg (by omega), ih.2 _ _ _ h,
          List.modifyHead_modifyHead]
        simp [Function.comp_def]

/-- The first port that is no number, among those the array has entries for, decides. -/
theorem settle_eq (ends : Bool) (ports : List (List UInt8)) : ∀ addrsCount ≤ maxProcesses,
    settle ends ports addrsCount =
      ((ports.take (maxProcesses - addrsCount)).findSome? portError).elim
        (if addrsCount + ports.length ≤ maxProcesses then
          some (if ends then .ok (addrsCount + ports.length) else .error .einval) else none)
        fun err => some (.error err) := by
  induction ports with
  | nil =>
    intro addrsCount h
    simp [settle, h]
  | cons port ports ih =>
    intro addrsCount h
    rw [settle]
    by_cases hroom : addrsCount < maxProcesses
    · obtain ⟨left, hleft⟩ : ∃ left, maxProcesses - addrsCount = left + 1 :=
        ⟨maxProcesses - addrsCount - 1, by omega⟩
      have hleft' : maxProcesses - (addrsCount + 1) = left := by omega
      rw [if_pos hroom, hleft, List.take_succ_cons, List.findSome?_cons, ih _ hroom, hleft']
      cases portError port with
      | none => simp [Nat.add_assoc, Nat.add_comm 1]
      | some err => rfl
    · have hfull : maxProcesses - addrsCount = 0 := by omega
      rw [if_neg hroom, hfull, List.take_zero, List.findSome?_nil, Option.elim_none,
        if_neg (by rw [List.length_cons]; omega)]

/-- What the loop makes of an argument. -/
theorem counted_desc (desc : List UInt8) (addrs : Addrs) : counted (parseLoop inAton desc [] false addrs 0) =
    ((((itemsOf desc).map portText).take maxProcesses).findSome? portError).elim
      (if (itemsOf desc).length ≤ maxProcesses then
        some (if endsInItem (desc.splitOn comma) then .ok (itemsOf desc).length else .error .einval) else none)
      fun err => some (.error err) := by
  have hports : portsOf (desc.splitOn comma) = (itemsOf desc).map portText := rfl
  rw [(counted_parseLoop inAton desc).1 [] addrs 0 (Nat.zero_le _), settle_eq _ _ 0 (Nat.zero_le _), hports,
    Nat.sub_zero, Nat.zero_add, List.length_map]

/-! ### Staying inside the array -/

/-- The parser's result is one within the limits: no access outside the array; on success as many entries as
    the argument has items, at least one and at most 32; and more items than that are rejected. -/
def WithinLimits (desc : List UInt8) (r : Option (Except ParseErrno Unit × AtddClientConfig)) : Prop :=
  ∃ res config, r = some (res, config) ∧
    (res = .ok () → config.addrsCount = (itemsOf desc).length ∧ 1 ≤ config.addrsCount ∧
      config.addrsCount ≤ maxProcesses) ∧
    (maxProcesses < (itemsOf desc).length → res = .error .einval)

/-- An argument whose last part is an item has an item. -/
theorem itemsOf_pos {desc : List UInt8} (h : endsInItem (desc.splitOn comma) = true) :
    1 ≤ (itemsOf desc).length := by
  rw [endsInItem, Option.any_eq_true] at h
  obtain ⟨part, hlast, hcolon⟩ := h
  have hmem : part ∈ itemsOf desc := List.mem_filter.mpr ⟨List.mem_of_getLast? hlast, hcolon⟩
  exact List.length_pos_of_mem hmem

section result

variable {inAton} {addrs : Addrs} {allocated : Bool} {config : AtddClientConfig} {desc : List UInt8}

theorem parse_of_none (h : counted (parseLoop inAton desc [] false addrs 0) = none) :
    parseAtddAddrs inAton addrs allocated config desc = none := by
  rw [parseAtddAddrs, Option.map_eq_none_iff.mp h, Option.bind_none]

theorem parse_of_error {err : ParseErrno}
    (h : counted (parseLoop inAton desc [] false addrs 0) = some (.error err)) :
    parseAtddAddrs inAton addrs allocated config desc = some (.error err, config) := by
  obtain ⟨res, hres, heq⟩ := Option.map_eq_some_iff.mp h
  cases res with
  | error err' =>
    obtain rfl : err' = err := by simpa [Except.map] using heq
    rw [parseAtddAddrs, hres, Option.bind_some]
  | ok x => simp [Except.map] at heq

theorem parse_of_ok {k : ℕ} (h : counted (parseLoop inAton desc [] false addrs 0) = some (.ok k))
    (hk : k ≤ maxProcesses) : ∃ res config', parseAtddAddrs inAton addrs allocated config desc =
      some (res, config') ∧ config'.addrsCount = k := by
  obtain ⟨res, hres, heq⟩ := Option.map_eq_some_iff.mp h
  cases res with
  | error err => simp [Except.map] at heq
  | ok x =>
    obtain ⟨addrs', k'⟩ := x
    obtain rfl : k' = k := by simpa [Except.map] using heq
    rw [parseAtddAddrs, hres, Option.bind_some]
    cases allocated with
    | false => exact ⟨.error .enomem, ⟨none, k'⟩, rfl, rfl⟩
    | true =>
      refine ⟨.ok (), ⟨some ((addrs'.items.drop 0).take k'), k'⟩, ?_, rfl⟩
      simp only [if_true, Block.load]
      rw [if_pos (by omega), Option.map_some]

end result

/-- CORRECT (the parser's array): the parser stays within the limits if and only if the argument has at most
    32 items, or one of the first 32 ports is malformed and those before it are numbers. -/
theorem withinLimits_iff (addrs : Addrs) (allocated : Bool) (config : AtddClientConfig) (desc : List UInt8) :
    WithinLimits desc (parseAtddAddrs inAton addrs allocated config desc) ↔
      (itemsOf desc).length ≤ maxProcesses ∨
        (((itemsOf desc).map portText).take maxProcesses).findSome? portError = some .einval := by
  have hloop := counted_desc inAton desc addrs
  cases hfirst : (((itemsOf desc).map portText).take maxProcesses).findSome? portError with
  | some err =>
    rw [hfirst, Option.elim_some] at hloop
    rw [parse_of_error hloop, Option.some_inj]
    constructor
    · rintro ⟨res, config', heq, -, hmany⟩
      obtain ⟨rfl, rfl⟩ : .error err = res ∧ config = config' := by simpa using heq
      by_cases hitems : (itemsOf desc).length ≤ maxProcesses
      · exact Or.inl hitems
      · exact Or.inr (by simpa using hmany (by omega))
    · intro h
      refine ⟨.error err, config, rfl, by simp, fun hmany => ?_⟩
      rw [h.resolve_left (by omega)]
  | none =>
    rw [hfirst, Option.elim_none] at hloop
    by_cases hitems : (itemsOf desc).length ≤ maxProcesses
    · rw [if_pos hitems] at hloop
      refine ⟨fun _ => Or.inl hitems, fun _ => ?_⟩
      cases hends : endsInItem (desc.splitOn comma) with
      | false =>
        rw [hends, if_neg (by simp)] at hloop
        exact ⟨_, _, parse_of_error hloop, by simp, fun _ => rfl⟩
      | true =>
        rw [hends, if_pos rfl] at hloop
        obtain ⟨res, config', heq, hcount⟩ : ∃ res config', parseAtddAddrs inAton addrs allocated config desc =
          some (res, config') ∧ config'.addrsCount = (itemsOf desc).length := parse_of_ok hloop hitems
        refine ⟨res, config', heq, fun _ => ?_, fun hmany => by omega⟩
        rw [hcount]
        exact ⟨rfl, itemsOf_pos hends, hitems⟩
    · rw [if_neg hitems] at hloop
      rw [parse_of_none hloop]
      constructor
      · rintro ⟨res, config', heq, -⟩
        cases heq
      · rintro (h | h)
        · exact absurd h hitems
        · cases h

end parse

/-- The item `1:1`, 33 times. -/
def manyProcesses : List UInt8 := [comma].intercalate (List.replicate 33 ['1'.toUInt8, colon, '1'.toUInt8])

/-- An array of zeros. -/
def zeroAddrs : Addrs := ⟨List.replicate maxProcesses ⟨0, 0⟩, List.length_replicate⟩

set_option maxRecDepth 4000 in
/-- The address of the 33rd item is stored behind the array. -/
theorem manyProcesses_outside : parseAtddAddrs (fun _ => 0) zeroAddrs true ⟨none, 0⟩ manyProcesses = none ∧
    ¬ WithinLimits manyProcesses (parseAtddAddrs (fun _ => 0) zeroAddrs true ⟨none, 0⟩ manyProcesses) := by
  have hnone : parseAtddAddrs (fun _ => 0) zeroAddrs true ⟨none, 0⟩ manyProcesses = none := by
    refine parse_of_none ((counted_desc _ manyProcesses zeroAddrs).trans ?_)
    decide +kernel
  refine ⟨hnone, ?_⟩
  rintro ⟨res, config, heq, -⟩
  rw [hnone] at heq
  cases heq

end AtomicDisk.Driver
