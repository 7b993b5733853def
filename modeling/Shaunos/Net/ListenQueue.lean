import Mathlib
import Shaunos.Common.Chain
import Shaunos.Common.Run

/-!
# The queues of a listening socket

Reference: `Kernel/net/uipc_socket2.c` (`soqinsque`, `soqremque`, `soisconnected`, `soisdisconnected`,
`sonewconn1`), `Kernel/net/uipc_socket.c` (`sofree`, `soabort`, `soaccept`, `solisten`),
`Kernel/net/uipc_syscall.c` (`kaccept`), `Kernel/netinet/tcp_usrreq.c` (`PRU_ABORT`),
`Kernel/netinet/tcp_subr.c` (`tcp_close`), `Kernel/netinet/in_pcb.c` (`in_pcbdetach`).

A socket that listens has two queues: `so_q0` has the connections that are being made, and `so_q` those
that can be accepted. The fields that link a queue start in the listening socket itself.

* `soqinsque_end`, `soqremque_found`, `soqremque_missing` — what the two functions do to the queues;
* `ListenInv.call` — every call that does right keeps the queues;
* `listenRight_iff` — when the queues are right all along a run.
-/

namespace Shaunos.Net

/-! ## The code -/

/-- The argument `q` of `soqinsque` and `soqremque`, which says which queue. -/
inductive SoQ where
  /-- 0, for `so_q0` and `so_q0len`. -/
  | soQ0
  /-- Not 0, for `so_q` and `so_qlen`. -/
  | soQ
deriving DecidableEq

/-- The bits of `so_state` and `so_options`, and what else of a socket is not a link. -/
structure SoState where
  ssNofdref : Bool
  ssIsConnected : Bool
  ssIsConnecting : Bool
  ssIsDisconnecting : Bool
  ssIsConfirming : Bool
  ssCantSendMore : Bool
  ssCantRcvMore : Bool
  soAcceptConn : Bool
  /-- `so_pcb` is not null. -/
  soPcb : Bool
  soQlimit : ℤ

/-- `3 * so_qlimit / 2`: with more connections than that, `sonewconn1` makes no other one. -/
def SoState.room (st : SoState) : ℤ := Int.tdiv (3 * st.soQlimit) 2

/-- `struct socket`, as far as queues go. -/
structure ListenSock (ι : Type*) where
  soHead : Option ι
  /-- `so_q0` and `so_q`. -/
  link : SoQ → Option ι
  /-- `so_q0len` and `so_qlen`. -/
  len : SoQ → ℤ
  state : SoState

/-- The sockets in memory. -/
structure SockHeap (ι : Type*) where
  live : Finset ι
  sock : ι → ListenSock ι

def sOMAXCONN : ℤ := 5

/-- The argument `connstatus` of `sonewconn1`. -/
inductive ConnStatus where
  | zero
  | isConfirming
  | isConnected
deriving DecidableEq

/-- The queue for a new connection. -/
def ConnStatus.soqueue : ConnStatus → SoQ
  | zero => .soQ0
  | isConfirming => .soQ
  | isConnected => .soQ

/-- `so->so_state |= connstatus`. -/
def ConnStatus.set (st : SoState) : ConnStatus → SoState
  | zero => st
  | isConfirming => { st with ssIsConfirming := true }
  | isConnected => { st with ssIsConnected := true }

section

variable {ι : Type*} [DecidableEq ι]

namespace SockHeap

variable (s : SockHeap ι)

def modify (i : ι) (f : ListenSock ι → ListenSock ι) : SockHeap ι :=
  { s with sock := Function.update s.sock i (f (s.sock i)) }

def setLink (i : ι) (q : SoQ) (p : Option ι) : SockHeap ι :=
  s.modify i fun x => { x with link := Function.update x.link q p }

def setState (i : ι) (f : SoState → SoState) : SockHeap ι :=
  s.modify i fun x => { x with state := f x.state }

/-- The links of one of the queues. -/
def next (q : SoQ) (i : ι) : Option ι := (s.sock i).link q

end SockHeap

/-- `soqinsque`. -/
def soqinsque (s : SockHeap ι) (head so : ι) (q : SoQ) : Option (SockHeap ι) := do
  let s := s.modify so fun x => { x with soHead := some head }
  let s := s.modify head fun x => { x with len := Function.update x.len q (x.len q + 1) }
  let s := s.setLink so q none
  let prev ← walkLast (s.next q) (s.live.card + 1) head
  return s.setLink prev q (some so)

/-- `soqremque`. It follows a null pointer if the socket has no head. -/
def soqremque (s : SockHeap ι) (so : ι) (q : SoQ) : Option (ℤ × SockHeap ι) := do
  let head ← (s.sock so).soHead
  match ← walkTo (s.next q) so (s.live.card + 1) head with
  | none => return (0, s)
  | some prev =>
      let s := s.setLink prev q (s.next q so)
      let s := s.modify head fun x => { x with len := Function.update x.len q (x.len q - 1) }
      return (1, s.modify so fun x => { x with soHead := none, link := fun _ => none })

/-- `soisconnected`. -/
def soisconnected (s : SockHeap ι) (so : ι) : Option (SockHeap ι) := do
  let head := (s.sock so).soHead
  let s := s.setState so fun st => { st with
    ssIsConnecting := false, ssIsDisconnecting := false, ssIsConfirming := false, ssIsConnected := true }
  match head with
  | none => return s
  | some head =>
      let (ret, s) ← soqremque s so .soQ0
      if ret ≠ 0 then soqinsque s head so .soQ else return s

/-- `sonewconn1`: the new socket, or null. `mem` is what `kmalloc` finds, and `attach` says that
`PRU_ATTACH` succeeds. -/
def sonewconn1 (s : SockHeap ι) (head : ι) (connstatus : ConnStatus) (mem : Option ι) (attach : Bool) :
    Option (Option ι × SockHeap ι) := do
  if (s.sock head).len .soQ + (s.sock head).len .soQ0 > (s.sock head).state.room then return (none, s)
  else
    match mem with
    | none => return (none, s)
    | some so =>
        let x : ListenSock ι := {
          soHead := none
          link := fun _ => none
          len := fun _ => 0
          state := { (s.sock head).state with
            ssNofdref := true, soAcceptConn := false, soPcb := false, soQlimit := 0 } }
        let s ← soqinsque { live := insert so s.live, sock := Function.update s.sock so x } head so
          connstatus.soqueue
        if attach then
          return (some so, s.setState so fun st => connstatus.set { st with soPcb := true })
        else
          let (_, s) ← soqremque s so connstatus.soqueue
          return (none, { s with live := s.live.erase so })

/-- `sofree`. -/
def sofree (s : SockHeap ι) (so : ι) : Option (SockHeap ι) := do
  if (s.sock so).state.soPcb ∨ (s.sock so).state.ssNofdref = false then return s
  else
    let s ← match (s.sock so).soHead with
      | none => pure s
      | some _ =>
          let (ret, s) ← soqremque s so .soQ0
          let s ← if ret = 0 then (soqremque s so .soQ).map Prod.snd else pure s
          pure (s.modify so fun x => { x with soHead := none })
    return { s with live := s.live.erase so }

/-- `soabort`, which ends in `tcp_close`. -/
def soabort (s : SockHeap ι) (so : ι) : Option (SockHeap ι) :=
  if (s.sock so).state.soPcb = false then some s
  else
    sofree (s.setState so fun st => { st with
      ssIsConnecting := false, ssIsConnected := false, ssIsDisconnecting := false
      ssCantSendMore := true, ssCantRcvMore := true, soPcb := false }) so

/-- What `kaccept` does to the queues. It sleeps while there is no connection; if `ready` does not hold it
gives up, for an error of the socket or for want of a file. -/
def kaccept (s : SockHeap ι) (head : ι) (ready : Bool) : Option (SockHeap ι) := do
  if (s.sock head).len .soQ = 0 ∨ !ready then return s
  else
    let aso ← (s.sock head).link .soQ
    let (_, s) ← soqremque s aso .soQ
    return s.setState aso fun st => { st with ssNofdref := false }

/-! ## Runs -/

/-- The calls on sockets. -/
inductive ListenCall (ι : Type*) where
  | sonewconn1 (head : ι) (connstatus : ConnStatus) (mem : Option ι) (attach : Bool)
  | soisconnected (so : ι)
  | soqinsque (head so : ι) (q : SoQ)
  | soqremque (so : ι) (q : SoQ)
  | kaccept (head : ι) (ready : Bool)
  | soabort (so : ι)

/-- One call. -/
def SockHeap.call (s : SockHeap ι) : ListenCall ι → Option (SockHeap ι)
  | .sonewconn1 head connstatus mem attach => (sonewconn1 s head connstatus mem attach).map Prod.snd
  | .soisconnected so => soisconnected s so
  | .soqinsque head so q => soqinsque s head so q
  | .soqremque so q => (soqremque s so q).map Prod.snd
  | .kaccept head ready => kaccept s head ready
  | .soabort so => soabort s so

/-- The connection is made, or waits only to be confirmed. -/
def SoState.Completed (st : SoState) : Prop := st.ssIsConnected = true ∨ st.ssIsConfirming = true

/-- A socket that listens. -/
def SockHeap.Listens (s : SockHeap ι) (i : ι) : Prop :=
  i ∈ s.live ∧ (s.sock i).state.soAcceptConn = true

/-- A socket in memory that does not listen. -/
def SockHeap.Plain (s : SockHeap ι) (i : ι) : Prop :=
  i ∈ s.live ∧ (s.sock i).state.soAcceptConn = false

/-- What the callers of each function see to. -/
def ListenCall.Fits (s : SockHeap ι) : ListenCall ι → Prop
  | .sonewconn1 head _ mem _ => s.Listens head ∧ ∀ so ∈ mem, so ∉ s.live
  | .soisconnected so => s.Plain so
  | .soqinsque head so q => s.Listens head ∧ s.Plain so ∧ (s.sock so).soHead = none ∧
      (s.sock so).state.ssNofdref = true ∧ ((s.sock so).state.Completed ↔ q = .soQ) ∧
      (s.sock head).len .soQ + (s.sock head).len .soQ0 ≤ (s.sock head).state.room
  | .soqremque so _ => s.Plain so ∧ (s.sock so).soHead ≠ none
  | .kaccept head _ => s.Listens head
  | .soabort so => s.Plain so

/-- `sonewconn1` must not make a connection on a socket that is itself connected, since the new socket gets
the state of the old one: it would be on `so_q0` and say that it is connected. -/
def ListenCall.Ok (s : SockHeap ι) : ListenCall ι → Prop
  | .sonewconn1 head connstatus mem attach =>
      (s.sock head).len .soQ + (s.sock head).len .soQ0 ≤ (s.sock head).state.room →
        connstatus = .zero → mem.isSome → attach = true → ¬ (s.sock head).state.Completed
  | _ => True

instance SoState.decidableCompleted (st : SoState) : Decidable st.Completed :=
  inferInstanceAs (Decidable (st.ssIsConnected = true ∨ st.ssIsConfirming = true))

instance SockHeap.decidableListens (s : SockHeap ι) (i : ι) : Decidable (s.Listens i) :=
  inferInstanceAs (Decidable (i ∈ s.live ∧ (s.sock i).state.soAcceptConn = true))

instance SockHeap.decidablePlain (s : SockHeap ι) (i : ι) : Decidable (s.Plain i) :=
  inferInstanceAs (Decidable (i ∈ s.live ∧ (s.sock i).state.soAcceptConn = false))

instance ListenCall.decidableFits (s : SockHeap ι) : ∀ c : ListenCall ι, Decidable (c.Fits s)
  | .sonewconn1 head _ mem _ => inferInstanceAs (Decidable (s.Listens head ∧ ∀ so ∈ mem, so ∉ s.live))
  | .soisconnected so => inferInstanceAs (Decidable (s.Plain so))
  | .soqinsque head so q => inferInstanceAs (Decidable (s.Listens head ∧ s.Plain so ∧
      (s.sock so).soHead = none ∧ (s.sock so).state.ssNofdref = true ∧
      ((s.sock so).state.Completed ↔ q = .soQ) ∧
      (s.sock head).len .soQ + (s.sock head).len .soQ0 ≤ (s.sock head).state.room))
  | .soqremque so _ => inferInstanceAs (Decidable (s.Plain so ∧ (s.sock so).soHead ≠ none))
  | .kaccept head _ => inferInstanceAs (Decidable (s.Listens head))
  | .soabort so => inferInstanceAs (Decidable (s.Plain so))

instance ListenCall.decidableOk (s : SockHeap ι) : ∀ c : ListenCall ι, Decidable (c.Ok s)
  | .sonewconn1 head connstatus mem attach => inferInstanceAs (Decidable
      ((s.sock head).len .soQ + (s.sock head).len .soQ0 ≤ (s.sock head).state.room →
        connstatus = .zero → mem.isSome → attach = true → ¬ (s.sock head).state.Completed))
  | .soisconnected _ => isTrue trivial
  | .soqinsque .. => isTrue trivial
  | .soqremque .. => isTrue trivial
  | .kaccept .. => isTrue trivial
  | .soabort _ => isTrue trivial

/-- Sockets without any connections. -/
structure Idle (s : SockHeap ι) : Prop where
  head : ∀ i ∈ s.live, (s.sock i).soHead = none
  link : ∀ i, s.Listens i → ∀ q, s.next q i = none
  len : ∀ i, s.Listens i → ∀ q, (s.sock i).len q = 0
  limit : ∀ i, s.Listens i → 0 ≤ (s.sock i).state.soQlimit ∧ (s.sock i).state.soQlimit ≤ sOMAXCONN

/-- The two queues of each listening socket. The counters are their lengths, which stay small. A socket is
on the queue that its state says, and points back to the head; a socket with a head is on one of its queues;
no socket is on two. `soqremque` takes out the socket named and leaves the order of the others. -/
structure ListenRight (s : SockHeap ι) (queue : ι → SoQ → List ι) : Prop where
  chain : ∀ i, s.Listens i → ∀ q, Chain (s.next q) (s.next q i) (queue i q)
  len : ∀ i, s.Listens i → ∀ q, (s.sock i).len q = (queue i q).length
  small : ∀ i, s.Listens i → (queue i .soQ0).length + (queue i .soQ).length ≤ 8
  back : ∀ i, s.Listens i → ∀ q, ∀ m ∈ queue i q, s.Plain m ∧ (s.sock m).soHead = some i ∧
    ((s.sock m).state.Completed ↔ q = .soQ)
  queued : ∀ m ∈ s.live, ∀ i, (s.sock m).soHead = some i → s.Listens i ∧ ∃ q, m ∈ queue i q
  once : ∀ i j, s.Listens i → s.Listens j → ∀ q r m, m ∈ queue i q → m ∈ queue j r → i = j ∧ q = r
  remque : ∀ m ∈ s.live, ∀ i, (s.sock m).soHead = some i → ∀ q, ∃ ret s', soqremque s m q = some (ret, s') ∧
    (ret ≠ 0 ↔ m ∈ queue i q) ∧ ∀ j, s.Listens j → ∀ r, Chain (s'.next r) (s'.next r j)
      (if j = i ∧ r = q then (queue j r).erase m else queue j r)

/-! ## Links

What the queues are does not depend on the flags of the sockets on them. -/

/-- The queues as chains of links. -/
structure Linked (s : SockHeap ι) (queue : ι → SoQ → List ι) : Prop where
  chain : ∀ i, s.Listens i → ∀ q, Chain (s.next q) (s.next q i) (queue i q)
  len : ∀ i, s.Listens i → ∀ q, (s.sock i).len q = (queue i q).length
  back : ∀ i, s.Listens i → ∀ q, ∀ m ∈ queue i q, s.Plain m ∧ (s.sock m).soHead = some i
  queued : ∀ m ∈ s.live, ∀ i, (s.sock m).soHead = some i → s.Listens i ∧ ∃ q, m ∈ queue i q
  apart : ∀ i, s.Listens i → ∀ q r m, m ∈ queue i q → m ∈ queue i r → q = r
  top : ∀ i, s.Listens i → (s.sock i).soHead = none

/-- `so` put at the end of a queue. -/
def enqueue (queue : ι → SoQ → List ι) (head so : ι) (q : SoQ) : ι → SoQ → List ι :=
  fun j r => if j = head ∧ r = q then queue j r ++ [so] else queue j r

/-- `so` taken out of a queue. -/
def dequeue (queue : ι → SoQ → List ι) (head so : ι) (q : SoQ) : ι → SoQ → List ι :=
  fun j r => if j = head ∧ r = q then (queue j r).erase so else queue j r

variable {s : SockHeap ι} {queue : ι → SoQ → List ι} {head so i j m : ι} {q r : SoQ}

theorem SockHeap.sock_modify (f : ListenSock ι → ListenSock ι) (j : ι) :
    (s.modify i f).sock j = if j = i then f (s.sock j) else s.sock j := by
  by_cases hj : j = i
  · subst hj
    simp [SockHeap.modify]
  · simp [SockHeap.modify, hj]

theorem SockHeap.next_setLink (p : Option ι) :
    (s.setLink i q p).next r = if r = q then Function.update (s.next r) i p else s.next r := by
  funext k
  by_cases hk : k = i
  · subst hk
    by_cases hr : r = q
    · subst hr
      simp [SockHeap.next, SockHeap.setLink, SockHeap.modify]
    · simp [SockHeap.next, SockHeap.setLink, SockHeap.modify, hr]
  · by_cases hr : r = q <;> simp [SockHeap.next, SockHeap.setLink, SockHeap.modify, hk, hr]

omit [DecidableEq ι] in
theorem SockHeap.Plain.ne (hm : s.Plain m) (hi : s.Listens i) : m ≠ i := by
  rintro rfl
  exact absurd (hi.2.symm.trans hm.2) (by decide)

namespace Linked

variable (h : Linked s queue)
include h

omit [DecidableEq ι] in
theorem nodup (hi : s.Listens i) (q : SoQ) : (queue i q).Nodup := (h.chain i hi q).nodup

theorem length_lt (hi : s.Listens i) (q : SoQ) : (queue i q).length < s.live.card + 1 := by
  have hsub : (queue i q).toFinset ⊆ s.live := by
    intro m hm
    exact (h.back i hi q m (List.mem_toFinset.mp hm)).1.1
  have hcard := Finset.card_le_card hsub
  rw [List.toFinset_card_of_nodup (h.nodup hi q)] at hcard
  exact Nat.lt_succ_of_le hcard

omit [DecidableEq ι] in
theorem head_not_mem (hi : s.Listens i) (hj : s.Listens j) : i ∉ queue j r := by
  intro hm
  exact (h.back j hj r i hm).1.ne hi rfl

omit [DecidableEq ι] in
/-- A socket is on one queue only. -/
theorem once (hi : s.Listens i) (hj : s.Listens j) (hq : m ∈ queue i q) (hr : m ∈ queue j r) :
    i = j ∧ q = r := by
  have hhead := (h.back i hi q m hq).2.symm.trans (h.back j hj r m hr).2
  obtain rfl := Option.some.inj hhead
  exact ⟨rfl, h.apart i hi q r m hq hr⟩

end Linked

/-- The state after `soqremque` has found the socket behind `prev`. -/
def SockHeap.linkOut (s : SockHeap ι) (head prev so : ι) (q : SoQ) : SockHeap ι :=
  ((s.setLink prev q (s.next q so)).modify head fun x => { x with
    len := Function.update x.len q (x.len q - 1) }).modify so fun x => { x with
      soHead := none, link := fun _ => none }

/-- The state after `soqinsque` has found that `prev` is the last one. -/
def SockHeap.linkIn (s : SockHeap ι) (head prev so : ι) (q : SoQ) : SockHeap ι :=
  (((s.modify so fun x => { x with soHead := some head }).modify head fun x => { x with
    len := Function.update x.len q (x.len q + 1) }).setLink so q none).setLink prev q (some so)

section

variable {prev : ι}

theorem SockHeap.linkOut_state (j : ι) : ((s.linkOut head prev so q).sock j).state = (s.sock j).state := by
  simp only [SockHeap.linkOut, SockHeap.setLink, SockHeap.sock_modify]
  split_ifs <;> rfl

theorem SockHeap.linkOut_soHead (j : ι) : ((s.linkOut head prev so q).sock j).soHead =
    if j = so then none else (s.sock j).soHead := by
  simp only [SockHeap.linkOut, SockHeap.setLink, SockHeap.sock_modify]
  split_ifs <;> rfl

theorem SockHeap.linkOut_len (j : ι) (r : SoQ) : ((s.linkOut head prev so q).sock j).len r =
    if j = head ∧ r = q then (s.sock j).len r - 1 else (s.sock j).len r := by
  simp only [SockHeap.linkOut, SockHeap.setLink, SockHeap.sock_modify]
  by_cases hr : r = q
  · subst hr
    split_ifs <;> simp_all
  · split_ifs <;> simp_all

theorem SockHeap.linkOut_next (r : SoQ) : (s.linkOut head prev so q).next r =
    Function.update ((s.setLink prev q (s.next q so)).next r) so none := by
  funext k
  by_cases hk : k = so
  · subst hk
    simp [SockHeap.linkOut, SockHeap.next, SockHeap.sock_modify]
  · rw [Function.update_of_ne hk]
    simp only [SockHeap.linkOut, SockHeap.next, SockHeap.sock_modify, if_neg hk]
    split_ifs <;> rfl

theorem SockHeap.linkIn_state (j : ι) : ((s.linkIn head prev so q).sock j).state = (s.sock j).state := by
  simp only [SockHeap.linkIn, SockHeap.setLink, SockHeap.sock_modify]
  split_ifs <;> rfl

theorem SockHeap.linkIn_soHead (j : ι) : ((s.linkIn head prev so q).sock j).soHead =
    if j = so then some head else (s.sock j).soHead := by
  simp only [SockHeap.linkIn, SockHeap.setLink, SockHeap.sock_modify]
  split_ifs <;> rfl

theorem SockHeap.linkIn_len (j : ι) (r : SoQ) : ((s.linkIn head prev so q).sock j).len r =
    if j = head ∧ r = q then (s.sock j).len r + 1 else (s.sock j).len r := by
  simp only [SockHeap.linkIn, SockHeap.setLink, SockHeap.sock_modify]
  by_cases hr : r = q
  · subst hr
    split_ifs <;> simp_all
  · split_ifs <;> simp_all

theorem SockHeap.linkIn_next (r : SoQ) : (s.linkIn head prev so q).next r =
    if r = q then Function.update (Function.update (s.next r) so none) prev (some so) else s.next r := by
  have hlinks : ∀ k, ((s.modify so fun x => { x with soHead := some head }).modify head fun x => { x with
      len := Function.update x.len q (x.len q + 1) }).next k = s.next k := by
    intro k
    funext j
    simp only [SockHeap.next, SockHeap.sock_modify]
    split_ifs <;> rfl
  rw [SockHeap.linkIn, SockHeap.next_setLink, SockHeap.next_setLink, hlinks]
  split_ifs <;> rfl

end

omit [DecidableEq ι] in
/-- No socket of one listening socket is one of another. -/
theorem Linked.disjoint (h : Linked s queue) (hi : s.Listens i) (hj : s.Listens j) (hij : i ≠ j) {k : ι}
    (hm : m ∈ i :: queue i q) (hk : k ∈ j :: queue j r) : k ≠ m := by
  rintro rfl
  rcases List.mem_cons.mp hm with rfl | hm
  · rcases List.mem_cons.mp hk with rfl | hk
    · exact hij rfl
    · exact h.head_not_mem hi hj hk
  · rcases List.mem_cons.mp hk with rfl | hk
    · exact h.head_not_mem hj hi hm
    · exact hij (h.once hi hj hm hk).1

section

variable {k : ι} (h : Linked s queue) (hi : s.Listens i) (hm : m ∈ queue i q)
include h hi hm

theorem Linked.mem_of_mem_dequeue (hj : s.Listens j) (hk : k ∈ dequeue queue i m q j r) :
    k ∈ queue j r ∧ k ≠ m := by
  rw [dequeue] at hk
  split_ifs at hk with hjr
  · obtain ⟨rfl, rfl⟩ := hjr
    have ⟨hne, hmem⟩ := (h.nodup hi r).mem_erase_iff.mp hk
    exact ⟨hmem, hne⟩
  · refine ⟨hk, ?_⟩
    rintro rfl
    have ⟨hji, hrq⟩ := h.once hj hi hk hm
    exact hjr ⟨hji, hrq⟩

omit h hi hm in
theorem mem_dequeue (hk : k ∈ queue j r) (hne : k ≠ m) : k ∈ dequeue queue i m q j r := by
  rw [dequeue]
  split_ifs
  · exact (List.mem_erase_of_ne hne).mpr hk
  · exact hk

theorem Linked.chain_linkOut {a b : List ι} (hab : queue i q = a ++ m :: b) (hj : s.Listens j) (r : SoQ) :
    Chain ((s.linkOut i (a.getLastD i) m q).next r) ((s.linkOut i (a.getLastD i) m q).next r j)
      (dequeue queue i m q j r) := by
  have hmi : m ≠ i := (h.back i hi q m hm).1.ne hi
  have hprev : a.getLastD i ∈ i :: queue i q := by
    have hlast : a.getLastD i ∈ i :: a := List.getLastD_mem_cons
    rw [hab, ← List.cons_append]
    exact List.mem_append_left _ hlast
  rw [SockHeap.linkOut_next, SockHeap.next_setLink]
  by_cases hji : j = i
  · subst hji
    by_cases hrq : r = q
    · subst hrq
      have hnodup := h.nodup hj r
      rw [hab] at hnodup
      have hma : m ∉ a := fun hma => List.disjoint_of_nodup_append hnodup hma List.mem_cons_self
      have hmb : m ∉ b := (List.nodup_cons.mp (List.nodup_append.mp hnodup).2.1).1
      have hqueue : dequeue queue j m r j r = a ++ b := by
        rw [dequeue, if_pos ⟨rfl, rfl⟩, hab, List.erase_append_right _ hma, List.erase_cons_head]
      have hchain : Chain (s.next r) (s.next r j) (a ++ m :: b) := hab ▸ h.chain j hj r
      have hhead : j ∉ a ++ m :: b := hab ▸ h.head_not_mem hj hj
      rw [hqueue, if_pos rfl]
      refine (hchain.remove hhead).congr_head fun k hk => Function.update_of_ne ?_ _ _
      rintro rfl
      rcases List.mem_cons.mp hk with hk | hk
      · exact hmi hk
      · exact (List.mem_append.mp hk).elim hma hmb
    · have hqueue : dequeue queue j m q j r = queue j r := if_neg fun hjr => hrq hjr.2
      rw [if_neg hrq, hqueue]
      refine (h.chain j hj r).congr_head fun k hk => Function.update_of_ne ?_ _ _
      rintro rfl
      rcases List.mem_cons.mp hk with hk | hk
      · exact hmi hk
      · exact hrq (h.apart j hj r q k hk hm)
  · have hij : i ≠ j := fun he => hji he.symm
    have hqueue : dequeue queue i m q j r = queue j r := if_neg fun hjr => hji hjr.1
    rw [hqueue]
    refine (h.chain j hj r).congr_head fun k hk => ?_
    have hkm : k ≠ m := h.disjoint hi hj hij (List.mem_cons_of_mem i hm) hk
    rw [Function.update_of_ne hkm]
    split_ifs
    · exact Function.update_of_ne (h.disjoint hi hj hij hprev hk) _ _
    · rfl

/-- A socket that is on the queue is taken out. -/
theorem soqremque_found : ∃ s', soqremque s m q = some (1, s') ∧ s'.live = s.live ∧
    (∀ j, (s'.sock j).state = (s.sock j).state) ∧
    (∀ j, (s'.sock j).soHead = if j = m then none else (s.sock j).soHead) ∧
    Linked s' (dequeue queue i m q) := by
  have ⟨hplain, hhead⟩ := h.back i hi q m hm
  have ⟨a, b, hab⟩ := List.append_of_mem hm
  have hchain : Chain (s.next q) (s.next q i) (a ++ m :: b) := hab ▸ h.chain i hi q
  have hwalk : walkTo (s.next q) m (s.live.card + 1) i = some (some (a.getLastD i)) :=
    walkTo_eq hchain (hab ▸ h.length_lt hi q)
  set t := s.linkOut i (a.getLastD i) m q with ht
  have hstate : ∀ j, (t.sock j).state = (s.sock j).state := s.linkOut_state
  have hsoHead : ∀ j, (t.sock j).soHead = if j = m then none else (s.sock j).soHead := s.linkOut_soHead
  have hlistens : ∀ j, t.Listens j → s.Listens j := fun j hj => ⟨hj.1, hstate j ▸ hj.2⟩
  refine ⟨t, ?_, rfl, hstate, hsoHead, ?_⟩
  · simp only [soqremque, hhead, Option.bind_eq_bind, Option.bind_some, hwalk]
    rfl
  constructor
  · intro j hj r
    exact h.chain_linkOut hi hm hab (hlistens j hj) r
  · intro j hj r
    have hlen := h.len j (hlistens j hj) r
    rw [SockHeap.linkOut_len, dequeue]
    split_ifs with hjr
    · obtain ⟨rfl, rfl⟩ := hjr
      have hpos := List.length_pos_of_mem hm
      rw [hlen, List.length_erase_of_mem hm]
      omega
    · exact hlen
  · intro j hj r k hk
    have ⟨hmem, hne⟩ := h.mem_of_mem_dequeue hi hm (hlistens j hj) hk
    have ⟨hplain, hhead⟩ := h.back j (hlistens j hj) r k hmem
    refine ⟨⟨hplain.1, (hstate k).symm ▸ hplain.2⟩, ?_⟩
    rw [hsoHead, if_neg hne, hhead]
  · intro k hk j hkj
    rw [hsoHead] at hkj
    split_ifs at hkj with hkm
    have ⟨hj, r, hmem⟩ := h.queued k hk j hkj
    exact ⟨⟨hj.1, (hstate j).symm ▸ hj.2⟩, r, mem_dequeue hmem hkm⟩
  · intro j hj r r' k hr hr'
    have hmem := (h.mem_of_mem_dequeue hi hm (hlistens j hj) hr).1
    have hmem' := (h.mem_of_mem_dequeue hi hm (hlistens j hj) hr').1
    exact h.apart j (hlistens j hj) r r' k hmem hmem'
  · intro j hj
    rw [hsoHead, h.top j (hlistens j hj), ite_self]

end

/-- A socket that is not on the queue is not found, and nothing changes. -/
theorem soqremque_missing (h : Linked s queue) (hi : s.Listens i) (hhead : (s.sock m).soHead = some i)
    (hm : m ∉ queue i q) : soqremque s m q = some (0, s) := by
  have hwalk := walkTo_none (h.chain i hi q) hm (h.length_lt hi q)
  simp only [soqremque, hhead, Option.bind_eq_bind, Option.bind_some, hwalk]
  rfl

section

variable {k : ι} (h : Linked s queue) (hi : s.Listens i) (hm : s.Plain m) (hnone : (s.sock m).soHead = none)
include h hi hm hnone

omit [DecidableEq ι] hi hm in
theorem Linked.not_mem (hj : s.Listens j) : m ∉ queue j r := by
  intro hmem
  exact Option.some_ne_none j ((h.back j hj r m hmem).2.symm.trans hnone)

omit [DecidableEq ι] hi in
theorem Linked.new_ne (hj : s.Listens j) (hk : k ∈ j :: queue j r) : k ≠ m := by
  rintro rfl
  rcases List.mem_cons.mp hk with rfl | hk
  · exact hm.ne hj rfl
  · exact h.not_mem hnone hj hk

omit h hi hm hnone in
theorem mem_enqueue : k ∈ enqueue queue i m q j r ↔ k ∈ queue j r ∨ (k = m ∧ j = i ∧ r = q) := by
  rw [enqueue]
  split_ifs with hjr
  · simp [hjr]
  · simp [hjr]

theorem Linked.chain_linkIn (hj : s.Listens j) (r : SoQ) :
    Chain ((s.linkIn i ((queue i q).getLastD i) m q).next r)
      ((s.linkIn i ((queue i q).getLastD i) m q).next r j) (enqueue queue i m q j r) := by
  rw [SockHeap.linkIn_next]
  by_cases hrq : r = q
  · subst hrq
    rw [if_pos rfl]
    have hchain : Chain (Function.update (s.next r) m none) (Function.update (s.next r) m none j)
        (queue j r) :=
      (h.chain j hj r).congr_head fun k hk => Function.update_of_ne (h.new_ne hm hnone hj hk) _ _
    by_cases hji : j = i
    · subst hji
      have hqueue : enqueue queue j m r j r = queue j r ++ [m] := if_pos ⟨rfl, rfl⟩
      rw [hqueue]
      refine hchain.snoc (h.head_not_mem hj hj) ?_ (Function.update_self ..)
      intro hmem
      exact h.new_ne hm hnone hj hmem rfl
    · have hqueue : enqueue queue i m r j r = queue j r := if_neg fun hjr => hji hjr.1
      have hlast : (queue i r).getLastD i ∈ i :: queue i r := List.getLastD_mem_cons
      rw [hqueue]
      refine hchain.congr_head fun k hk => Function.update_of_ne ?_ _ _
      exact h.disjoint hi hj (fun he => hji he.symm) hlast hk
  · have hqueue : enqueue queue i m q j r = queue j r := if_neg fun hjr => hrq hjr.2
    rw [if_neg hrq, hqueue]
    exact h.chain j hj r

/-- A socket without a head is put at the end of the queue. -/
theorem soqinsque_end (q : SoQ) : ∃ s', soqinsque s i m q = some s' ∧ s'.live = s.live ∧
    (∀ j, (s'.sock j).state = (s.sock j).state) ∧
    (∀ j, (s'.sock j).soHead = if j = m then some i else (s.sock j).soHead) ∧
    Linked s' (enqueue queue i m q) := by
  set t := s.linkIn i ((queue i q).getLastD i) m q with ht
  have hstate : ∀ j, (t.sock j).state = (s.sock j).state := s.linkIn_state
  have hsoHead : ∀ j, (t.sock j).soHead = if j = m then some i else (s.sock j).soHead := s.linkIn_soHead
  have hlistens : ∀ j, t.Listens j → s.Listens j := fun j hj => ⟨hj.1, hstate j ▸ hj.2⟩
  refine ⟨t, ?_, rfl, hstate, hsoHead, ?_⟩
  · have hlinks : (((s.modify m fun x => { x with soHead := some i }).modify i fun x => { x with
        len := Function.update x.len q (x.len q + 1) }).setLink m q none).next q =
          Function.update (s.next q) m none := by
      rw [SockHeap.next_setLink, if_pos rfl]
      congr 1
      funext k
      simp only [SockHeap.next, SockHeap.sock_modify]
      split_ifs <;> rfl
    have hchain : Chain (Function.update (s.next q) m none) (Function.update (s.next q) m none i)
        (queue i q) :=
      (h.chain i hi q).congr_head fun k hk => Function.update_of_ne (h.new_ne hm hnone hi hk) _ _
    have hwalk := walkLast_eq hchain (h.length_lt hi q)
    rw [← hlinks] at hwalk
    have hlive : s.live = (((s.modify m fun x => { x with soHead := some i }).modify i fun x => { x with
        len := Function.update x.len q (x.len q + 1) }).setLink m q none).live := rfl
    rw [hlive] at hwalk
    simp only [soqinsque, Option.bind_eq_bind, hwalk, Option.bind_some]
    rfl
  constructor
  · intro j hj r
    exact h.chain_linkIn hi hm hnone (hlistens j hj) r
  · intro j hj r
    have hlen := h.len j (hlistens j hj) r
    rw [SockHeap.linkIn_len, enqueue]
    split_ifs
    · rw [hlen, List.length_append]
      rfl
    · exact hlen
  · intro j hj r k hk
    rcases mem_enqueue.mp hk with hk | ⟨rfl, rfl, rfl⟩
    · have ⟨hplain, hhead⟩ := h.back j (hlistens j hj) r k hk
      refine ⟨⟨hplain.1, (hstate k).symm ▸ hplain.2⟩, ?_⟩
      rw [hsoHead, if_neg (h.new_ne hm hnone (hlistens j hj) (List.mem_cons_of_mem j hk)), hhead]
    · refine ⟨⟨hm.1, (hstate k).symm ▸ hm.2⟩, ?_⟩
      rw [hsoHead, if_pos rfl]
  · intro k hk j hkj
    rw [hsoHead] at hkj
    split_ifs at hkj with hkm
    · obtain rfl := Option.some.inj hkj
      exact ⟨⟨hi.1, (hstate i).symm ▸ hi.2⟩, q, mem_enqueue.mpr (.inr ⟨hkm, rfl, rfl⟩)⟩
    · have ⟨hj, r, hmem⟩ := h.queued k hk j hkj
      exact ⟨⟨hj.1, (hstate j).symm ▸ hj.2⟩, r, mem_enqueue.mpr (.inl hmem)⟩
  · intro j hj r r' k hr hr'
    have hlis := hlistens j hj
    rcases mem_enqueue.mp hr with hmem | ⟨rfl, rfl, rfl⟩
    · rcases mem_enqueue.mp hr' with hmem' | ⟨rfl, rfl, rfl⟩
      · exact h.apart j hlis r r' k hmem hmem'
      · exact absurd hmem (h.not_mem hnone hlis)
    · rcases mem_enqueue.mp hr' with hmem' | ⟨_, _, rfl⟩
      · exact absurd hmem' (h.not_mem hnone hlis)
      · rfl
  · intro j hj
    have hj := hlistens j hj
    rw [hsoHead, if_neg (hm.ne hj).symm, h.top j hj]

end

theorem SockHeap.modify_eq_self (f : ListenSock ι → ListenSock ι) (hf : f (s.sock i) = s.sock i) :
    s.modify i f = s := by
  rw [SockHeap.modify, hf, Function.update_eq_self]

theorem SockHeap.setState_state (f : SoState → SoState) (j : ι) :
    ((s.setState m f).sock j).state = if j = m then f (s.sock j).state else (s.sock j).state := by
  rw [SockHeap.setState, SockHeap.sock_modify]
  split_ifs <;> rfl

/-- Flags do not matter. -/
theorem Linked.setState (h : Linked s queue) (f : SoState → SoState)
    (hf : (f (s.sock m).state).soAcceptConn = (s.sock m).state.soAcceptConn) :
    Linked (s.setState m f) queue := by
  set t := s.setState m f with ht
  have haccept : ∀ j, (t.sock j).state.soAcceptConn = (s.sock j).state.soAcceptConn := by
    intro j
    rw [ht, SockHeap.setState_state]
    split_ifs with hj
    · rw [hj, hf]
    · rfl
  have hsock : ∀ j, (t.sock j).soHead = (s.sock j).soHead ∧ (t.sock j).link = (s.sock j).link ∧
      (t.sock j).len = (s.sock j).len := by
    intro j
    rw [ht, SockHeap.setState, SockHeap.sock_modify]
    split_ifs <;> exact ⟨rfl, rfl, rfl⟩
  have hnext : ∀ r, t.next r = s.next r := fun r => funext fun j => congrFun (hsock j).2.1 r
  have hlis : ∀ j, t.Listens j ↔ s.Listens j := by
    intro j
    rw [SockHeap.Listens, SockHeap.Listens, haccept]
    rfl
  constructor
  · intro j hj r
    rw [hnext]
    exact h.chain j ((hlis j).mp hj) r
  · intro j hj r
    rw [(hsock j).2.2]
    exact h.len j ((hlis j).mp hj) r
  · intro j hj r k hk
    have ⟨hplain, hhead⟩ := h.back j ((hlis j).mp hj) r k hk
    exact ⟨⟨hplain.1, (haccept k).trans hplain.2⟩, (hsock k).1.trans hhead⟩
  · intro k hk j hkj
    have ⟨hj, hmem⟩ := h.queued k hk j ((hsock k).1.symm.trans hkj)
    exact ⟨(hlis j).mpr hj, hmem⟩
  · intro j hj
    exact h.apart j ((hlis j).mp hj)
  · intro j hj
    exact (hsock j).1.trans (h.top j ((hlis j).mp hj))

/-- A socket without a head can be freed. -/
theorem Linked.free (h : Linked s queue) (hm : s.Plain m) (hnone : (s.sock m).soHead = none) :
    Linked { s with live := s.live.erase m } queue := by
  have hlis : ∀ j, SockHeap.Listens { s with live := s.live.erase m } j → s.Listens j := fun j hj =>
    ⟨Finset.mem_of_mem_erase hj.1, hj.2⟩
  constructor
  · intro j hj
    exact h.chain j (hlis j hj)
  · intro j hj
    exact h.len j (hlis j hj)
  · intro j hj r k hk
    have ⟨hplain, hhead⟩ := h.back j (hlis j hj) r k hk
    have hne : k ≠ m := by
      rintro rfl
      exact Option.some_ne_none j (hhead.symm.trans hnone)
    exact ⟨⟨Finset.mem_erase.mpr ⟨hne, hplain.1⟩, hplain.2⟩, hhead⟩
  · intro k hk j hkj
    have ⟨hj, hmem⟩ := h.queued k (Finset.mem_of_mem_erase hk) j hkj
    exact ⟨⟨Finset.mem_erase.mpr ⟨(hm.ne hj).symm, hj.1⟩, hj.2⟩, hmem⟩
  · intro j hj
    exact h.apart j (hlis j hj)
  · intro j hj
    exact h.top j (hlis j hj)

/-- A new socket is on no queue. -/
theorem Linked.new (h : Linked s queue) (hnew : m ∉ s.live) {x : ListenSock ι} (hhead : x.soHead = none)
    (haccept : x.state.soAcceptConn = false) :
    Linked { live := insert m s.live, sock := Function.update s.sock m x } queue := by
  set t : SockHeap ι := { live := insert m s.live, sock := Function.update s.sock m x } with ht
  have hsock : ∀ j ∈ s.live, t.sock j = s.sock j := by
    intro j hj
    refine Function.update_of_ne ?_ _ _
    rintro rfl
    exact hnew hj
  have hself : t.sock m = x := Function.update_self ..
  have hlis : ∀ j, t.Listens j ↔ s.Listens j := by
    intro j
    by_cases hj : j = m
    · subst hj
      refine iff_of_false ?_ fun hj => hnew hj.1
      rintro ⟨_, hj⟩
      rw [hself, haccept] at hj
      cases hj
    · have hold : t.sock j = s.sock j := Function.update_of_ne hj _ _
      rw [SockHeap.Listens, SockHeap.Listens, hold]
      simp [ht, hj]
  constructor
  · intro j hj r
    have hj := (hlis j).mp hj
    refine (h.chain j hj r).congr_head fun k hk => ?_
    have hlive : k ∈ s.live := by
      rcases List.mem_cons.mp hk with rfl | hk
      · exact hj.1
      · exact (h.back j hj r k hk).1.1
    rw [SockHeap.next, hsock k hlive]
    rfl
  · intro j hj r
    have hj := (hlis j).mp hj
    rw [hsock j hj.1]
    exact h.len j hj r
  · intro j hj r k hk
    have ⟨hplain, hhead⟩ := h.back j ((hlis j).mp hj) r k hk
    rw [SockHeap.Plain, hsock k hplain.1]
    exact ⟨⟨Finset.mem_insert_of_mem hplain.1, hplain.2⟩, hhead⟩
  · intro k hk j hkj
    rcases Finset.mem_insert.mp hk with rfl | hk
    · rw [hself, hhead] at hkj
      cases hkj
    · rw [hsock k hk] at hkj
      have ⟨hj, hmem⟩ := h.queued k hk j hkj
      exact ⟨(hlis j).mpr hj, hmem⟩
  · intro j hj
    exact h.apart j ((hlis j).mp hj)
  · intro j hj
    have hj := (hlis j).mp hj
    rw [hsock j hj.1]
    exact h.top j hj

/-! ## States -/

/-- The number of sockets on the queues of a listening socket. -/
def total (queue : ι → SoQ → List ι) (i : ι) : ℤ := (queue i .soQ).length + (queue i .soQ0).length

/-- What every call keeps. -/
structure ListenInv (s : SockHeap ι) (queue : ι → SoQ → List ι) : Prop where
  linked : Linked s queue
  flags : ∀ i, s.Listens i → ∀ q, ∀ m ∈ queue i q,
    (s.sock m).state.ssNofdref = true ∧ ((s.sock m).state.Completed ↔ q = .soQ)
  small : ∀ i, s.Listens i → total queue i ≤ (s.sock i).state.room + 1
  limit : ∀ i, s.Listens i → 0 ≤ (s.sock i).state.soQlimit ∧ (s.sock i).state.soQlimit ≤ sOMAXCONN

namespace ListenInv

variable (h : ListenInv s queue)
include h

/-- The queues stay the same. -/
theorem same {t : SockHeap ι} (hlinked : Linked t queue) (hlive : t.live ⊆ insert m s.live)
    (hmt : (t.sock m).state.soAcceptConn = false) (hstate : ∀ j ≠ m, (t.sock j).state = (s.sock j).state)
    (hflags : ∀ i, s.Listens i → ∀ q, m ∈ queue i q →
      (t.sock m).state.ssNofdref = true ∧ ((t.sock m).state.Completed ↔ q = .soQ)) :
    ListenInv t queue := by
  have hne : ∀ j, t.Listens j → j ≠ m := by
    rintro j hj rfl
    exact absurd (hmt.symm.trans hj.2) (by decide)
  have hlis : ∀ j, t.Listens j → s.Listens j := by
    intro j hj
    have hlive := (Finset.mem_insert.mp (hlive hj.1)).resolve_left (hne j hj)
    exact ⟨hlive, hstate j (hne j hj) ▸ hj.2⟩
  refine ⟨hlinked, ?_, ?_, ?_⟩
  · intro j hj r k hk
    by_cases hkm : k = m
    · subst hkm
      exact hflags j (hlis j hj) r hk
    · rw [hstate k hkm]
      exact h.flags j (hlis j hj) r k hk
  · intro j hj
    rw [hstate j (hne j hj)]
    exact h.small j (hlis j hj)
  · intro j hj
    rw [hstate j (hne j hj)]
    exact h.limit j (hlis j hj)

/-- A socket is taken out. -/
theorem dequeued {t : SockHeap ι} (hi : s.Listens i) (hm : m ∈ queue i q)
    (hlinked : Linked t (dequeue queue i m q)) (hlive : t.live ⊆ s.live)
    (hmt : (t.sock m).state.soAcceptConn = false)
    (hstate : ∀ j ≠ m, (t.sock j).state = (s.sock j).state) : ListenInv t (dequeue queue i m q) := by
  have hne : ∀ j, t.Listens j → j ≠ m := by
    rintro j hj rfl
    exact absurd (hmt.symm.trans hj.2) (by decide)
  have hlis : ∀ j, t.Listens j → s.Listens j := fun j hj =>
    ⟨hlive hj.1, hstate j (hne j hj) ▸ hj.2⟩
  refine ⟨hlinked, ?_, ?_, ?_⟩
  · intro j hj r k hk
    have ⟨hmem, hkm⟩ := h.linked.mem_of_mem_dequeue hi hm (hlis j hj) hk
    rw [hstate k hkm]
    exact h.flags j (hlis j hj) r k hmem
  · intro j hj
    rw [hstate j (hne j hj)]
    have hle : ∀ r, (dequeue queue i m q j r).length ≤ (queue j r).length := by
      intro r
      rw [dequeue]
      split_ifs
      · exact List.length_erase_le
      · exact le_refl _
    have hsmall := h.small j (hlis j hj)
    have hsoQ := hle .soQ
    have hsoQ0 := hle .soQ0
    rw [total] at hsmall ⊢
    omega
  · intro j hj
    rw [hstate j (hne j hj)]
    exact h.limit j (hlis j hj)

/-- A socket is put on a queue that has room. -/
theorem enqueued {t : SockHeap ι} (hnot : ∀ j, s.Listens j → ∀ r, m ∉ queue j r)
    (hlinked : Linked t (enqueue queue i m q)) (hlive : t.live ⊆ insert m s.live)
    (hmt : (t.sock m).state.soAcceptConn = false) (hstate : ∀ j ≠ m, (t.sock j).state = (s.sock j).state) (hroom : total queue i ≤ (s.sock i).state.room)
    (hflags : (t.sock m).state.ssNofdref = true ∧ ((t.sock m).state.Completed ↔ q = .soQ)) :
    ListenInv t (enqueue queue i m q) := by
  have hne : ∀ j, t.Listens j → j ≠ m := by
    rintro j hj rfl
    exact absurd (hmt.symm.trans hj.2) (by decide)
  have hlis : ∀ j, t.Listens j → s.Listens j := by
    intro j hj
    have hlive := (Finset.mem_insert.mp (hlive hj.1)).resolve_left (hne j hj)
    exact ⟨hlive, hstate j (hne j hj) ▸ hj.2⟩
  refine ⟨hlinked, ?_, ?_, ?_⟩
  · intro j hj r k hk
    rcases mem_enqueue.mp hk with hmem | ⟨rfl, rfl, rfl⟩
    · have hkm : k ≠ m := by
        rintro rfl
        exact hnot j (hlis j hj) r hmem
      rw [hstate k hkm]
      exact h.flags j (hlis j hj) r k hmem
    · exact hflags
  · intro j hj
    rw [hstate j (hne j hj)]
    have hsmall := h.small j (hlis j hj)
    rw [total] at hsmall ⊢
    simp only [enqueue]
    by_cases hji : j = i
    · subst hji
      rw [total] at hroom
      cases q <;> simp <;> omega
    · simpa [hji] using hsmall
  · intro j hj
    rw [hstate j (hne j hj)]
    exact h.limit j (hlis j hj)

omit [DecidableEq ι] in
theorem room_of_len (hi : s.Listens i)
    (hroom : (s.sock i).len .soQ + (s.sock i).len .soQ0 ≤ (s.sock i).state.room) :
    total queue i ≤ (s.sock i).state.room := by
  rw [h.linked.len i hi, h.linked.len i hi] at hroom
  exact hroom

/-- `soqremque` keeps the queues. -/
theorem soqremque (hi : s.Listens i) (hm : s.Plain m) (hhead : (s.sock m).soHead = some i) (q : SoQ) :
    ∃ ret t queue', soqremque s m q = some (ret, t) ∧ ListenInv t queue' := by
  by_cases hmem : m ∈ queue i q
  · have ⟨t, heq, hlive, hstate, _, hlinked⟩ := soqremque_found h.linked hi hmem
    refine ⟨1, t, dequeue queue i m q, heq, h.dequeued hi hmem hlinked hlive.le ?_ fun j _ => hstate j⟩
    rw [hstate, hm.2]
  · exact ⟨0, s, queue, soqremque_missing h.linked hi hhead hmem, h⟩

theorem soqinsque (hi : s.Listens i) (hm : s.Plain m) (hnone : (s.sock m).soHead = none)
    (hfdref : (s.sock m).state.ssNofdref = true) (hq : (s.sock m).state.Completed ↔ q = .soQ)
    (hroom : (s.sock i).len .soQ + (s.sock i).len .soQ0 ≤ (s.sock i).state.room) :
    ∃ t queue', Net.soqinsque s i m q = some t ∧ ListenInv t queue' := by
  have ⟨t, heq, hlive, hstate, _, hlinked⟩ := soqinsque_end h.linked hi hm hnone q
  have hsub : t.live ⊆ insert m s.live := hlive ▸ Finset.subset_insert m s.live
  refine ⟨t, enqueue queue i m q, heq, h.enqueued (fun j hj r => h.linked.not_mem hnone hj) hlinked hsub ?_
    (fun j _ => hstate j) (h.room_of_len hi hroom) ?_⟩
  · rw [hstate, hm.2]
  · rw [hstate]
    exact ⟨hfdref, hq⟩

/-- `soisconnected` takes a connection from `so_q0` to `so_q`. -/
theorem soisconnected (hm : s.Plain m) :
    ∃ t queue', Net.soisconnected s m = some t ∧ ListenInv t queue' := by
  set f : SoState → SoState := fun st => { st with
    ssIsConnecting := false, ssIsDisconnecting := false, ssIsConfirming := false, ssIsConnected := true }
    with hf
  set s₁ := s.setState m f with hs₁
  have hlinked : Linked s₁ queue := h.linked.setState f rfl
  have hstate : ∀ j ≠ m, (s₁.sock j).state = (s.sock j).state := by
    intro j hj
    rw [hs₁, SockHeap.setState_state, if_neg hj]
  have hself : (s₁.sock m).state = f (s.sock m).state := by
    rw [hs₁, SockHeap.setState_state, if_pos rfl]
  have hplain : s₁.Plain m := ⟨hm.1, by rw [hself]; exact hm.2⟩
  have hlis : ∀ j, s.Listens j → s₁.Listens j := fun j hj =>
    ⟨hj.1, by rw [hstate j (hm.ne hj).symm]; exact hj.2⟩
  have hhead₁ : (s₁.sock m).soHead = (s.sock m).soHead := by
    rw [hs₁, SockHeap.setState, SockHeap.sock_modify, if_pos rfl]
  cases hhead : (s.sock m).soHead with
  | none =>
      refine ⟨s₁, queue, by rw [Net.soisconnected, hhead]; rfl, ?_⟩
      refine h.same hlinked (Finset.subset_insert m s.live) hplain.2 hstate ?_
      intro j hj r hmem
      exact absurd hmem (h.linked.not_mem hhead hj)
  | some i =>
      have ⟨hi, q, hmem⟩ := h.linked.queued m hm.1 i hhead
      have hi₁ := hlis i hi
      have ⟨hfdref, hq⟩ := h.flags i hi q m hmem
      have hfdref₁ : (s₁.sock m).state.ssNofdref = true := by rw [hself]; exact hfdref
      have hdone : (s₁.sock m).state.Completed := by rw [hself]; exact .inl rfl
      cases q with
      | soQ =>
          have hnot : m ∉ queue i .soQ0 := by
            intro hmem₀
            cases h.linked.apart i hi .soQ .soQ0 m hmem hmem₀
          have hrem := soqremque_missing hlinked hi₁ (hhead₁.trans hhead) hnot
          refine ⟨s₁, queue, ?_, ?_⟩
          · rw [Net.soisconnected, hhead]
            simp only [← hf, ← hs₁, hrem, Option.bind_eq_bind, Option.bind_some]
            rfl
          · refine h.same hlinked (Finset.subset_insert m s.live) hplain.2 hstate ?_
            intro j hj r hmem'
            have ⟨_, hr⟩ := h.linked.once hi hj hmem hmem'
            exact ⟨hfdref₁, iff_of_true hdone hr.symm⟩
      | soQ0 =>
          have ⟨s₂, hrem, hlive₂, hstate₂, hhead₂, hlinked₂⟩ := soqremque_found hlinked hi₁ hmem
          have hstate' : ∀ j ≠ m, (s₂.sock j).state = (s.sock j).state := fun j hj =>
            (hstate₂ j).trans (hstate j hj)
          have hplain₂ : s₂.Plain m := ⟨hlive₂ ▸ hm.1, by rw [hstate₂]; exact hplain.2⟩
          have hinv₂ : ListenInv s₂ (dequeue queue i m .soQ0) :=
            h.dequeued hi hmem hlinked₂ hlive₂.le hplain₂.2 hstate'
          have hi₂ : s₂.Listens i := ⟨hlive₂ ▸ hi.1, by rw [hstate₂]; exact hi₁.2⟩
          have hnone₂ : (s₂.sock m).soHead = none := by rw [hhead₂, if_pos rfl]
          have hlen₂ : (s₂.sock i).len .soQ + (s₂.sock i).len .soQ0 ≤ (s₂.sock i).state.room := by
            have hsmall := h.small i hi
            have hpos := List.length_pos_of_mem hmem
            rw [hlinked₂.len i hi₂, hlinked₂.len i hi₂, hstate' i (hm.ne hi).symm]
            rw [total] at hsmall
            simp only [dequeue, true_and, if_true, reduceCtorEq, if_false, List.length_erase_of_mem hmem]
            omega
          have ⟨t, queue', hins, hinv⟩ := hinv₂.soqinsque hi₂ hplain₂ hnone₂ (by rw [hstate₂]; exact hfdref₁)
            (iff_of_true (by rw [hstate₂]; exact hdone) rfl) hlen₂
          refine ⟨t, queue', ?_, hinv⟩
          rw [Net.soisconnected, hhead]
          simp only [← hf, ← hs₁, hrem, Option.bind_eq_bind, Option.bind_some]
          exact hins

/-- `kaccept` takes the first connection. -/
theorem kaccept (hi : s.Listens i) (ready : Bool) :
    ∃ t queue', Net.kaccept s i ready = some t ∧ ListenInv t queue' := by
  by_cases hwait : (s.sock i).len .soQ = 0 ∨ !ready
  · exact ⟨s, queue, if_pos hwait, h⟩
  have hchain := h.linked.chain i hi .soQ
  have hlen := h.linked.len i hi .soQ
  cases hqueue : queue i .soQ with
  | nil =>
      rw [hqueue] at hlen
      exact absurd (.inl hlen) hwait
  | cons m l =>
      rw [hqueue] at hchain
      have hlink : (s.sock i).link .soQ = some m := hchain.1
      have hmem : m ∈ queue i .soQ := hqueue ▸ List.mem_cons_self
      have hm := (h.linked.back i hi .soQ m hmem).1
      have ⟨s₁, hrem, hlive, hstate, _, hlinked⟩ := soqremque_found h.linked hi hmem
      set f : SoState → SoState := fun st => { st with ssNofdref := false } with hf
      refine ⟨s₁.setState m f, dequeue queue i m .soQ, ?_, ?_⟩
      · rw [Net.kaccept, if_neg hwait, hlink]
        simp only [hrem, Option.bind_eq_bind, Option.bind_some]
        rfl
      · refine h.dequeued hi hmem (hlinked.setState f rfl) hlive.le ?_ ?_
        · rw [SockHeap.setState_state, if_pos rfl, hstate]
          exact hm.2
        · intro j hj
          rw [SockHeap.setState_state, if_neg hj, hstate]

/-- `soabort` frees a connection. -/
theorem soabort (hm : s.Plain m) : ∃ t queue', Net.soabort s m = some t ∧ ListenInv t queue' := by
  by_cases hpcb : (s.sock m).state.soPcb = false
  · exact ⟨s, queue, if_pos hpcb, h⟩
  set f : SoState → SoState := fun st => { st with
    ssIsConnecting := false, ssIsConnected := false, ssIsDisconnecting := false
    ssCantSendMore := true, ssCantRcvMore := true, soPcb := false } with hf
  set s₁ := s.setState m f with hs₁
  have hlinked : Linked s₁ queue := h.linked.setState f rfl
  have hstate : ∀ j ≠ m, (s₁.sock j).state = (s.sock j).state := by
    intro j hj
    rw [hs₁, SockHeap.setState_state, if_neg hj]
  have hself : (s₁.sock m).state = f (s.sock m).state := by
    rw [hs₁, SockHeap.setState_state, if_pos rfl]
  have hplain : s₁.Plain m := ⟨hm.1, by rw [hself]; exact hm.2⟩
  have hlis : ∀ j, s.Listens j → s₁.Listens j := fun j hj =>
    ⟨hj.1, by rw [hstate j (hm.ne hj).symm]; exact hj.2⟩
  have hhead₁ : (s₁.sock m).soHead = (s.sock m).soHead := by
    rw [hs₁, SockHeap.setState, SockHeap.sock_modify, if_pos rfl]
  have habort : Net.soabort s m = sofree s₁ m := if_neg hpcb
  rw [habort]
  by_cases hfdref : (s₁.sock m).state.ssNofdref = false
  · -- someone has the socket open, so it is on no queue
    refine ⟨s₁, queue, if_pos (.inr hfdref), ?_⟩
    refine h.same hlinked (Finset.subset_insert m s.live) hplain.2 hstate ?_
    intro j hj r hmem
    rw [hself] at hfdref
    exact absurd ((h.flags j hj r m hmem).1.symm.trans hfdref) (by decide)
  have hguard : ¬ ((s₁.sock m).state.soPcb ∨ (s₁.sock m).state.ssNofdref = false) := by
    rintro (hp | hp)
    · rw [hself] at hp
      cases hp
    · exact hfdref hp
  cases hhead : (s.sock m).soHead with
  | none =>
      have hnone : (s₁.sock m).soHead = none := hhead₁.trans hhead
      refine ⟨{ s₁ with live := s₁.live.erase m }, queue, ?_, ?_⟩
      · rw [sofree, if_neg hguard, hnone]
        rfl
      · refine h.same (hlinked.free hplain hnone) ?_ hplain.2 hstate ?_
        · exact (Finset.erase_subset m s.live).trans (Finset.subset_insert m s.live)
        · intro j hj r hmem
          exact absurd hmem (h.linked.not_mem hhead hj)
  | some i =>
      have hsome : (s₁.sock m).soHead = some i := hhead₁.trans hhead
      have ⟨hi, q, hmem⟩ := h.linked.queued m hm.1 i hhead
      have ⟨s₂, hrem, hlive₂, hstate₂, hhead₂, hlinked₂⟩ := soqremque_found hlinked (hlis i hi) hmem
      have hnone₂ : (s₂.sock m).soHead = none := by rw [hhead₂, if_pos rfl]
      have hself₂ : s₂.modify m (fun x => { x with soHead := none }) = s₂ :=
        SockHeap.modify_eq_self _ (by rw [← hnone₂])
      have hplain₂ : s₂.Plain m := ⟨hlive₂ ▸ hm.1, by rw [hstate₂]; exact hplain.2⟩
      refine ⟨{ s₂ with live := s₂.live.erase m }, dequeue queue i m q, ?_, ?_⟩
      · rw [sofree, if_neg hguard, hsome]
        cases q with
        | soQ0 =>
            simp only [hrem, Option.bind_eq_bind, Option.bind_some, Option.pure_def, one_ne_zero, if_false,
              hself₂]
        | soQ =>
            have hnot : m ∉ queue i .soQ0 := by
              intro hmem₀
              cases h.linked.apart i hi .soQ .soQ0 m hmem hmem₀
            have hmiss := soqremque_missing hlinked (hlis i hi) hsome hnot
            simp only [hmiss, hrem, Option.bind_eq_bind, Option.bind_some, Option.pure_def, if_true,
              Option.map_some, hself₂]
      · refine h.dequeued hi hmem (hlinked₂.free hplain₂ hnone₂) ?_ hplain₂.2 ?_
        · exact (Finset.erase_subset m s₂.live).trans hlive₂.le
        · intro j hj
          exact (hstate₂ j).trans (hstate j hj)

/-- A new connection, before and after `PRU_ATTACH`. -/
theorem sonewconn1_some (hi : s.Listens i) (hm : m ∉ s.live) (connstatus : ConnStatus)
    (hroom : (s.sock i).len .soQ + (s.sock i).len .soQ0 ≤ (s.sock i).state.room) :
    (∃ t, sonewconn1 s i connstatus (some m) true = some (some m, t) ∧ t.live = insert m s.live ∧
      Linked t (enqueue queue i m connstatus.soqueue) ∧ (∀ j ≠ m, (t.sock j).state = (s.sock j).state) ∧
      (t.sock m).state.soAcceptConn = false ∧ (t.sock m).state.ssNofdref = true ∧
      ((t.sock m).state.Completed ↔ (s.sock i).state.Completed ∨ connstatus ≠ .zero)) ∧
    (∃ t, sonewconn1 s i connstatus (some m) false = some (none, t) ∧ ListenInv t queue) := by
  have hguard : ¬ (s.sock i).len .soQ + (s.sock i).len .soQ0 >
      (s.sock i).state.room := not_lt.mpr hroom
  set q := connstatus.soqueue with hq
  set x : ListenSock ι := {
    soHead := none
    link := fun _ => none
    len := fun _ => 0
    state := { (s.sock i).state with
      ssNofdref := true, soAcceptConn := false, soPcb := false, soQlimit := 0 } } with hx
  set s₁ : SockHeap ι := { live := insert m s.live, sock := Function.update s.sock m x } with hs₁
  have hlinked₁ : Linked s₁ queue := h.linked.new hm rfl rfl
  have hself₁ : s₁.sock m = x := Function.update_self ..
  have hold₁ : ∀ j ≠ m, s₁.sock j = s.sock j := fun j hj => Function.update_of_ne hj _ _
  have him : i ≠ m := by
    rintro rfl
    exact hm hi.1
  have hi₁ : s₁.Listens i := ⟨Finset.mem_insert_of_mem hi.1, by rw [hold₁ i him]; exact hi.2⟩
  have hm₁ : s₁.Plain m := ⟨Finset.mem_insert_self m s.live, by rw [hself₁]⟩
  have hnone₁ : (s₁.sock m).soHead = none := by rw [hself₁]
  have hnot : m ∉ queue i q := hlinked₁.not_mem hnone₁ hi₁
  have ⟨s₂, hins, hlive₂, hstate₂, hhead₂, hlinked₂⟩ := soqinsque_end hlinked₁ hi₁ hm₁ hnone₁ q
  have hself₂ : (s₂.sock m).state = x.state := by rw [hstate₂, hself₁]
  have hold₂ : ∀ j ≠ m, (s₂.sock j).state = (s.sock j).state := fun j hj => by rw [hstate₂, hold₁ j hj]
  constructor
  · set f : SoState → SoState := fun st => connstatus.set { st with soPcb := true } with hf
    refine ⟨s₂.setState m f, ?_, hlive₂, hlinked₂.setState f ?_, ?_, ?_, ?_, ?_⟩
    · rw [sonewconn1, if_neg hguard]
      simp only [← hx, ← hs₁, ← hq, hins, Option.bind_eq_bind, Option.bind_some, if_true]
      rfl
    · cases connstatus <;> rfl
    · intro j hj
      rw [SockHeap.setState_state, if_neg hj, hold₂ j hj]
    · rw [SockHeap.setState_state, if_pos rfl, hself₂]
      cases connstatus <;> rfl
    · rw [SockHeap.setState_state, if_pos rfl, hself₂]
      cases connstatus <;> rfl
    · rw [SockHeap.setState_state, if_pos rfl, hself₂, SoState.Completed, SoState.Completed]
      cases connstatus <;> simp [hf, hx, ConnStatus.set]
  · have hi₂ : s₂.Listens i := ⟨hlive₂ ▸ hi₁.1, by rw [hstate₂]; exact hi₁.2⟩
    have hmem : m ∈ enqueue queue i m q i q := mem_enqueue.mpr (.inr ⟨rfl, rfl, rfl⟩)
    have ⟨s₃, hrem, hlive₃, hstate₃, hhead₃, hlinked₃⟩ := soqremque_found hlinked₂ hi₂ hmem
    have hback : dequeue (enqueue queue i m q) i m q = queue := by
      funext j r
      rw [dequeue, enqueue]
      split_ifs with hjr
      · obtain ⟨rfl, rfl⟩ := hjr
        rw [List.erase_append_right _ hnot, List.erase_cons_head, List.append_nil]
      · rfl
    rw [hback] at hlinked₃
    have hplain₃ : s₃.Plain m := by
      refine ⟨?_, by rw [hstate₃, hself₂]⟩
      rw [hlive₃, hlive₂]
      exact hm₁.1
    have hnone₃ : (s₃.sock m).soHead = none := by rw [hhead₃, if_pos rfl]
    refine ⟨{ s₃ with live := s₃.live.erase m }, ?_, ?_⟩
    · rw [sonewconn1, if_neg hguard]
      simp only [← hx, ← hs₁, ← hq, hins, hrem, Option.bind_eq_bind, Option.bind_some, Bool.false_eq_true,
        if_false]
      rfl
    · refine h.same (hlinked₃.free hplain₃ hnone₃) ?_ hplain₃.2 ?_ ?_
      · refine (Finset.erase_subset m s₃.live).trans ?_
        rw [hlive₃, hlive₂]
      · intro j hj
        exact (hstate₃ j).trans (hold₂ j hj)
      · intro j hj r hmem'
        exact absurd (h.linked.back j hj r m hmem').1.1 hm

/-- `sonewconn1` keeps the queues if it does right. -/
theorem sonewconn1 (hi : s.Listens i) (connstatus : ConnStatus) (mem : Option ι) (attach : Bool)
    (hm : ∀ so ∈ mem, so ∉ s.live) (hok : (ListenCall.sonewconn1 i connstatus mem attach).Ok s) :
    ∃ r t queue', Net.sonewconn1 s i connstatus mem attach = some (r, t) ∧ ListenInv t queue' := by
  by_cases hroom : (s.sock i).len .soQ + (s.sock i).len .soQ0 ≤ (s.sock i).state.room
  · cases mem with
    | none => exact ⟨none, s, queue, if_neg (not_lt.mpr hroom), h⟩
    | some m =>
        have hm : m ∉ s.live := hm m rfl
        have ⟨⟨t, heq, hlive, hlinked, hstate, hacc, hfdref, hdone⟩, hfail⟩ :=
          h.sonewconn1_some hi hm connstatus hroom
        cases attach with
        | false =>
            have ⟨t, heq, hinv⟩ := hfail
            exact ⟨none, t, queue, heq, hinv⟩
        | true =>
            refine ⟨some m, t, enqueue queue i m connstatus.soqueue, heq, ?_⟩
            refine h.enqueued ?_ hlinked hlive.le hacc hstate (h.room_of_len hi hroom) ⟨hfdref, ?_⟩
            · intro j hj r hmem
              exact hm (h.linked.back j hj r m hmem).1.1
            · rw [hdone]
              cases connstatus with
              | zero =>
                  have hnot := hok hroom rfl rfl rfl
                  simp [hnot, ConnStatus.soqueue]
              | isConfirming => simp [ConnStatus.soqueue]
              | isConnected => simp [ConnStatus.soqueue]
  · exact ⟨none, s, queue, if_pos (not_le.mp hroom), h⟩

theorem right : ListenRight s queue where
  chain := h.linked.chain
  len := h.linked.len
  small i hi := by
    have hsmall := h.small i hi
    have ⟨hlo, hhi⟩ := h.limit i hi
    rw [total, SoState.room, Int.tdiv_eq_ediv_of_nonneg (by omega)] at hsmall
    rw [sOMAXCONN] at hhi
    omega
  back i hi q m hm := by
    have ⟨hplain, hhead⟩ := h.linked.back i hi q m hm
    exact ⟨hplain, hhead, (h.flags i hi q m hm).2⟩
  queued := h.linked.queued
  once i j hi hj q r m hq hr := h.linked.once hi hj hq hr
  remque m hm i hhead q := by
    have ⟨hi, _⟩ := h.linked.queued m hm i hhead
    by_cases hmem : m ∈ queue i q
    · have ⟨t, heq, hlive, hstate, _, hlinked⟩ := soqremque_found h.linked hi hmem
      refine ⟨1, t, heq, iff_of_true one_ne_zero hmem, fun j hj r => ?_⟩
      exact hlinked.chain j ⟨hlive ▸ hj.1, by rw [hstate]; exact hj.2⟩ r
    · refine ⟨0, s, soqremque_missing h.linked hi hhead hmem, iff_of_false (not_not.mpr rfl) hmem, ?_⟩
      intro j hj r
      have hqueue : (if j = i ∧ r = q then (queue j r).erase m else queue j r) = queue j r := by
        split_ifs with hjr
        · obtain ⟨rfl, rfl⟩ := hjr
          exact List.erase_of_not_mem hmem
        · rfl
      rw [hqueue]
      exact h.linked.chain j hj r

/-- Every call returns, and keeps the queues if it does right. -/
theorem call (c : ListenCall ι) (hfits : c.Fits s) (hok : c.Ok s) :
    ∃ t, s.call c = some t ∧ ∃ queue', ListenInv t queue' := by
  cases c with
  | sonewconn1 head connstatus mem attach =>
      have ⟨r, t, queue', heq, hinv⟩ := h.sonewconn1 hfits.1 connstatus mem attach hfits.2 hok
      exact ⟨t, by rw [SockHeap.call, heq]; rfl, queue', hinv⟩
  | soisconnected so =>
      have ⟨t, queue', heq, hinv⟩ := h.soisconnected hfits
      exact ⟨t, heq, queue', hinv⟩
  | soqinsque head so q =>
      have ⟨hi, hm, hnone, hfdref, hq, hroom⟩ := hfits
      have ⟨t, queue', heq, hinv⟩ := h.soqinsque hi hm hnone hfdref hq hroom
      exact ⟨t, heq, queue', hinv⟩
  | soqremque so q =>
      have ⟨hm, hsome⟩ := hfits
      have ⟨i, hhead⟩ := Option.ne_none_iff_exists'.mp hsome
      have hi := (h.linked.queued so hm.1 i hhead).1
      have ⟨r, t, queue', heq, hinv⟩ := h.soqremque hi hm hhead q
      exact ⟨t, by rw [SockHeap.call, heq]; rfl, queue', hinv⟩
  | kaccept head ready =>
      have ⟨t, queue', heq, hinv⟩ := h.kaccept hfits ready
      exact ⟨t, heq, queue', hinv⟩
  | soabort so =>
      have ⟨t, queue', heq, hinv⟩ := h.soabort hfits
      exact ⟨t, heq, queue', hinv⟩

/-- A connection of a socket that is itself connected is on the wrong queue. -/
theorem not_right {c : ListenCall ι} {t : SockHeap ι} (hfits : c.Fits s) (hok : ¬ c.Ok s)
    (hcall : s.call c = some t) (queue' : ι → SoQ → List ι) : ¬ ListenRight t queue' := by
  intro hright
  cases c with
  | sonewconn1 head connstatus mem attach =>
      have ⟨hi, hmem⟩ := hfits
      simp only [ListenCall.Ok, Classical.not_imp, not_not] at hok
      obtain ⟨hroom, rfl, hsome, rfl, hdone⟩ := hok
      have ⟨m, hm⟩ := Option.isSome_iff_exists.mp hsome
      subst hm
      have ⟨⟨u, heq, hlive, hlinked, hstate, hacc, hfdref, hdone'⟩, _⟩ :=
        h.sonewconn1_some hi (hmem m rfl) .zero hroom
      obtain rfl : u = t := by
        rw [SockHeap.call, heq] at hcall
        exact Option.some.inj hcall
      have hne : head ≠ m := by
        rintro rfl
        exact hmem head rfl hi.1
      have hi' : u.Listens head :=
        ⟨hlive ▸ Finset.mem_insert_of_mem hi.1, by rw [hstate head hne]; exact hi.2⟩
      have hqueue := (hright.chain head hi' .soQ0).unique (hlinked.chain head hi' .soQ0)
      have hm : m ∈ queue' head .soQ0 := by
        rw [hqueue]
        exact mem_enqueue.mpr (.inr ⟨rfl, rfl, rfl⟩)
      have hstays := (hright.back head hi' .soQ0 m hm).2.2
      cases hstays.mp (hdone'.mpr (.inl hdone))
  | soisconnected so => exact hok trivial
  | soqinsque head so q => exact hok trivial
  | soqremque so q => exact hok trivial
  | kaccept head ready => exact hok trivial
  | soabort so => exact hok trivial

end ListenInv

omit [DecidableEq ι] in
theorem Idle.listenInv (h : Idle s) : ListenInv s fun _ _ => [] where
  linked := {
    chain := fun i hi q => h.link i hi q
    len := fun i hi q => h.len i hi q
    back := fun i hi q m hm => absurd hm List.not_mem_nil
    queued := fun m hm i hhead => absurd ((h.head m hm).symm.trans hhead) (Option.some_ne_none i).symm
    apart := fun i hi q r m hm => absurd hm List.not_mem_nil
    top := fun i hi => h.head i hi.1 }
  flags i hi q m hm := absurd hm List.not_mem_nil
  small i hi := by
    have hlo := (h.limit i hi).1
    rw [SoState.room, Int.tdiv_eq_ediv_of_nonneg (by omega)]
    simp only [total, List.length_nil]
    omega
  limit := h.limit

/-- **The queues are right all along a run if and only if no connection is made on a socket that is itself
connected.** -/
theorem listenRight_iff (hs : Idle s) (calls : List (ListenCall ι))
    (hfits : AllCalls SockHeap.call (fun s c => c.Fits s) s calls) :
    KeepsAll SockHeap.call (fun s => ∃ queue, ListenRight s queue) s calls ↔
      AllCalls SockHeap.call (fun s c => c.Ok s) s calls := by
  refine keepsAll_iff_of_inv (fun s => ∃ queue, ListenInv s queue) ?_ ?_ ?_ ⟨_, hs.listenInv⟩ calls hfits
  · rintro s ⟨queue, h⟩
    exact ⟨queue, h.right⟩
  · rintro s c ⟨queue, h⟩ hfit hok
    exact h.call c hfit hok
  · rintro s c t ⟨queue, h⟩ hfit hok hcall ⟨queue', hright⟩
    exact h.not_right hfit hok hcall queue' hright

end

/-- The socket 0 listens, with a backlog of 1. -/
def oneListener (connected : Bool) : SockHeap ℕ where
  live := {0}
  sock _ := {
    soHead := none
    link := fun _ => none
    len := fun _ => 0
    state := {
      ssNofdref := false, ssIsConnected := connected, ssIsConnecting := false, ssIsDisconnecting := false
      ssIsConfirming := false, ssCantSendMore := false, ssCantRcvMore := false, soAcceptConn := true
      soPcb := true, soQlimit := 1 } }

theorem idle_oneListener (connected : Bool) : Idle (oneListener connected) where
  head _ _ := rfl
  link _ _ _ := rfl
  len _ _ _ := rfl
  limit _ _ := by simp [oneListener, sOMAXCONN]

/-- Two connections are made, the first is accepted, and the second is given up. -/
theorem listenRight_iff_accept :
    KeepsAll SockHeap.call (fun s => ∃ queue, ListenRight s queue) (oneListener false)
      [.sonewconn1 0 .zero (some 1) true, .sonewconn1 0 .zero (some 2) true, .soisconnected 1,
        .sonewconn1 0 .zero (some 3) true, .kaccept 0 true, .soabort 2] :=
  (listenRight_iff (idle_oneListener false) _ (by decide +kernel)).mpr (by decide +kernel)

/-- The socket was connected before `solisten`. A new connection is on `so_q0` and says that it is
connected. -/
theorem sonewconn1_can_inherit :
    Idle (oneListener true) ∧ (ListenCall.sonewconn1 0 .zero (some 1) true).Fits (oneListener true) ∧
    ∃ t, (oneListener true).call (.sonewconn1 0 .zero (some 1) true) = some t ∧
      t.next .soQ0 0 = some 1 ∧ (t.sock 1).state.ssIsConnected = true ∧ ¬ ∃ queue, ListenRight t queue := by
  have hcall : ((oneListener true).call (.sonewconn1 0 .zero (some 1) true)).map
      (fun t => (t.next .soQ0 0, (t.sock 1).state.ssIsConnected)) = some (some 1, true) := by
    decide +kernel
  have ⟨t, ht, hfacts⟩ := Option.map_eq_some_iff.mp hcall
  have ⟨hlink, hconnected⟩ := Prod.mk.inj hfacts
  have hidle := idle_oneListener true
  have hfits : (ListenCall.sonewconn1 0 .zero (some 1) true).Fits (oneListener true) := by decide +kernel
  refine ⟨hidle, hfits, t, ht, hlink, hconnected, ?_⟩
  rintro ⟨queue, hright⟩
  exact hidle.listenInv.not_right hfits (by decide +kernel) ht queue hright

end Shaunos.Net
