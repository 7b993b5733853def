import Shaunos.Net.TcpStall

/-!
# The acknowledgement of a FIN

Reference: `Kernel/netinet/tcp_input.c` (`tcp_input`), `Kernel/netinet/tcp_output.c` (`tcp_output`),
`Kernel/netinet/tcp_usrreq.c` (`tcp_disconnect`, `tcp_usrclosed`).

Nothing says where the FIN is. If an acknowledgement covers more than the send buffer holds, then what lies behind the
buffer is taken for the FIN; but the SYN lies before the buffer, and it counts too.

* `FinInv.round` — a round of `tcp_output`;
* `FinInv.acked` — an acknowledgement;
* `finRight_of_reach` — the runs in which a FIN is acknowledged when the connection says so.
-/

namespace Shaunos.Net

/-! ## Runs -/

/-- The numbers and the data that a connection sends from. -/
structure SendView where
  una : BitVec 32
  nxt : BitVec 32
  max : BitVec 32
  iss : BitVec 32
  sentFin : Bool
  state : TcpState
  /-- The send buffer, without its limits and its lock. -/
  snd : SockBuf

def Conn.view (s : Conn) : SendView where
  una := s.tp.sndUna
  nxt := s.tp.sndNxt
  max := s.tp.sndMax
  iss := s.tp.iss
  sentFin := s.tp.tfSentFin
  state := s.tp.tState
  snd := { s.so.soSnd with sbHiwat := 0, sbMbmax := 0, sbLock := false }

/-- The connection, as long as there is one. -/
def ConnRun.conn : ConnRun → Option Conn
  | .idle s => some s
  | .ack x => some x.toConn
  | .output s _ _ => some s
  | .gone => none

namespace Incoming

variable (x : Incoming)

/-- `ti_ack` is new, and is not behind `snd_max`. -/
def AckNew : Prop := ¬ seqLEQ x.ti.tiAck x.tp.sndUna ∧ ¬ seqGT x.ti.tiAck x.tp.sndMax

instance decidableAckNew : Decidable x.AckNew := inferInstanceAs (Decidable (_ ∧ _))

end Incoming

/-- The numbers that a part takes an acknowledgement for: from `snd_una` up to the other one. -/
def ConnRun.acks (r : ConnRun) (c : ConnCall) (t : ConnRun) : Option (BitVec 32 × BitVec 32) :=
  match r, c with
  | .ack x, .ack => if x.AckNew then some (x.tp.sndUna, x.ti.tiAck) else none
  | .idle s, .input _ _ =>
      match t.conn with
      | some s' => if s'.tp.sndUna ≠ s.tp.sndUna then some (s.tp.sndUna, s'.tp.sndUna) else none
      | none => none
  | _, _ => none

/-- The number of the FIN in the segment that a part gives to `ip_output`. -/
def ConnRun.finSent : ConnRun → ConnCall → Option (BitVec 32)
  | .output s _ i, .round e =>
      let r := s.round
      let (_, tp, optlen) := r.options s.so e.rt
      if r.Sends s.so i ∧ r.Mbufs optlen e ∧ r.flags.thFin then some (r.nxt tp - 1) else none
  | _, _ => none

/-- `tcp_close` is called for an acknowledgement. -/
def ConnRun.closes : ConnRun → ConnRun → Bool
  | .ack _, .gone => true
  | _, _ => false

/-- A number is one of those from `una` up to `ack`. -/
def Covers (una ack f : BitVec 32) : Prop := f - una < ack - una

instance (una ack f : BitVec 32) : Decidable (Covers una ack f) := inferInstanceAs (Decidable (_ < _))

/-- A connection, and what it has come to. No code reads the other fields. -/
structure FinRun where
  run : ConnRun
  /-- The SYN is acknowledged. -/
  moved : Bool
  /-- The numbers of the FINs that were sent. -/
  fins : List (BitVec 32)
  /-- One of them is acknowledged. -/
  finAcked : Bool
  /-- `tcp_close` was called for an acknowledgement. -/
  closed : Bool

def FinRun.step (r : FinRun) (c : ConnCall) : Option FinRun :=
  (r.run.step c).map fun t =>
    let acks := r.run.acks c t
    { run := t
      moved := r.moved || acks.isSome
      fins := (r.run.finSent c).toList ++ r.fins
      finAcked := r.finAcked || acks.any fun a => r.fins.any fun f => Covers a.1 a.2 f
      closed := r.closed || r.run.closes t }

/-- The start: the SYN is about to be sent. -/
def FinRun.start (s : Conn) : FinRun := ⟨s.callOutput .plain, false, [], false, false⟩

/-- A connection that has not sent anything. -/
structure Conn.Fresh (s : Conn) : Prop where
  state : s.tp.tState = .synSent ∨ s.tp.tState = .synReceived
  una : s.tp.sndUna = s.tp.iss
  nxt : s.tp.sndNxt = s.tp.iss
  max : s.tp.sndMax = s.tp.iss
  fin : s.tp.tfSentFin = false
  snd : SbInv s.so.soSnd
  small : s.so.soSnd.bytes.length < 2 ^ 30

/-! ## What should hold -/

/-- The states that say that our FIN is acknowledged. -/
def TcpState.FinDone (s : TcpState) : Prop := s = .finWait2 ∨ s = .timeWait

instance (s : TcpState) : Decidable s.FinDone := inferInstanceAs (Decidable (_ ∨ _))

/-- The states in which an acknowledgement is asked for our FIN. -/
def TcpState.FinWaits (s : TcpState) : Prop := s = .finWait1 ∨ s = .closing ∨ s = .lastAck

instance (s : TcpState) : Decidable s.FinWaits := inferInstanceAs (Decidable (_ ∨ _))

/-- A connection says that our FIN is acknowledged, or ends for that, only if it is. -/
structure FinRun.FinRight (r : FinRun) : Prop where
  done : ∀ s ∈ r.run.conn, s.tp.tState.FinDone → r.finAcked = true
  closed : r.closed = true → r.finAcked = true

/-- If the SYN is not acknowledged yet, the acknowledgement covers all that the send buffer holds; and if our FIN is
waited for, it covers that too. -/
def Incoming.CoversAll (x : Incoming) (moved : Bool) : Prop :=
  moved = false → x.AckNew → x.so.soSnd.sbCc < x.ti.tiAck - x.tp.sndUna ∧
    (x.tp.tState.FinWaits → x.ti.tiAck - x.tp.sndUna ≠ x.so.soSnd.sbCc + 1)

/-- What a part has to meet: the first acknowledgement covers all, and the send buffer stays below 1 GiB. -/
def FinRun.Ok (r : FinRun) (c : ConnCall) : Prop :=
  match r.run, c with
  | .ack x, .ack => x.CoversAll r.moved
  | .idle s, .input a env => ∀ x ∈ s.incoming a env, x.fastAck = true → x.CoversAll r.moved
  | .idle s, .usrreq (.send m) => s.so.soSnd.bytes.length + chainLen m < 2 ^ 30
  | .idle s, .usrreq (.sendoob m) => s.so.soSnd.bytes.length + chainLen m < 2 ^ 30
  | _, _ => True

instance Incoming.decidableCoversAll (x : Incoming) (moved : Bool) : Decidable (x.CoversAll moved) :=
  inferInstanceAs (Decidable (_ → _ → _ ∧ (_ → _)))

instance FinRun.decidableOk (r : FinRun) (c : ConnCall) : Decidable (r.Ok c) :=
  match r with
  | ⟨.ack x, moved, _, _, _⟩ =>
      match c with
      | .ack => Incoming.decidableCoversAll x moved
      | .input _ _ | .usrreq _ | .round _ | .output
      | .timers _ _ | .slowtimo _ _ | .slowtimoEnd | .fasttimo | .socket _ _ _ _ | .quench | .notify _ =>
          instDecidableTrue
  | ⟨.idle _, _, _, _, _⟩ =>
      match c with
      | .input _ _ => Option.decidableForallMem _
      | .usrreq (.send _) | .usrreq (.sendoob _) => Nat.decLt _ _
      | .usrreq (.detach _) | .usrreq .listen | .usrreq (.disconnect _) | .usrreq .shutdown | .usrreq .rcvd
      | .usrreq .abort | .usrreq .other | .ack | .round _ | .output
      | .timers _ _ | .slowtimo _ _ | .slowtimoEnd | .fasttimo | .socket _ _ _ _ | .quench | .notify _ =>
          instDecidableTrue
  | ⟨.output _ _ _, _, _, _, _⟩ | ⟨.gone, _, _, _, _⟩ =>
      match c with
      | .input _ _ | .ack | .usrreq _ | .round _ | .output
      | .timers _ _ | .slowtimo _ _ | .slowtimoEnd | .fasttimo | .socket _ _ _ _ | .quench | .notify _ =>
          instDecidableTrue

/-! ## What is kept on the way -/

section

variable {s t : Conn} {x y : Incoming} {tp : Tcpcb} {so : Socket}

theorem sbreserve_view (sb : SockBuf) (cc : BitVec 32) :
    ({ (sbreserve sb cc).2 with sbHiwat := 0, sbMbmax := 0, sbLock := false } : SockBuf) =
      { sb with sbHiwat := 0, sbMbmax := 0, sbLock := false } := by
  rw [sbreserve]
  split
  · rfl
  · rfl

theorem tcpMss_view (rt : Option Rtentry) (so : Socket) (tp : Tcpcb) (offer : BitVec 16) :
    Conn.view ⟨(tcpMss rt so tp offer).2.1, (tcpMss rt so tp offer).2.2⟩ = Conn.view ⟨so, tp⟩ := by
  cases rt with
  | none => rfl
  | some rt =>
      have htimes : Conn.view ⟨so, tcpMssTimes rt.rtRmx tp⟩ = Conn.view ⟨so, tp⟩ := by
        rw [tcpMssTimes]
        dsimp only
        split
        · rfl
        · rfl
      refine Eq.trans ?_ htimes
      rw [tcpMss]
      dsimp only
      generalize tcpMssTimes rt.rtRmx tp = tp'
      unfold Conn.view
      split_ifs <;> simp only [sbreserve_view]

theorem tcpXmitTimer_view (so : Socket) (tp : Tcpcb) (rtt : BitVec 16) :
    Conn.view ⟨so, tcpXmitTimer tp rtt⟩ = Conn.view ⟨so, tp⟩ := by
  rw [tcpXmitTimer]
  dsimp only
  split_ifs <;> rfl

theorem Tcpcb.timeAck_view (tp : Tcpcb) (so : Socket) (tsPresent : Bool) (tsEcr tcpNow tiAck : BitVec 32) :
    Conn.view ⟨so, tp.timeAck tsPresent tsEcr tcpNow tiAck⟩ = Conn.view ⟨so, tp⟩ := by
  rw [timeAck]
  split_ifs
  · exact tcpXmitTimer_view so tp _
  · exact tcpXmitTimer_view so tp _
  · rfl

theorem Tcpcb.scaled_view (tp : Tcpcb) (so : Socket) : Conn.view ⟨so, tp.scaled⟩ = Conn.view ⟨so, tp⟩ := by
  rw [scaled]
  split_ifs <;> rfl

theorem Tcpcb.ackTimer_view (tp : Tcpcb) (so : Socket) (tiAck : BitVec 32) :
    Conn.view ⟨so, tp.ackTimer tiAck⟩ = Conn.view ⟨so, tp⟩ := by
  rw [ackTimer]
  split_ifs <;> rfl

theorem Tcpcb.outputIdle_view (tp : Tcpcb) (so : Socket) : Conn.view ⟨so, tp.outputIdle⟩ = Conn.view ⟨so, tp⟩ := by
  rw [outputIdle]
  split_ifs <;> rfl

/-- `tcp_reass` keeps what counts for sending. -/
theorem tcpReass_view {null : BitVec 32} {tp tp' : Tcpcb} {so so' : Socket} {ti : Option (Tcpiphdr × List Mbuf)}
    {fin : Bool} (h : tcpReass null tp so ti = some (fin, tp', so')) : Conn.view ⟨so', tp'⟩ = Conn.view ⟨so, tp⟩ := by
  have hpresent : ∀ tp : Tcpcb, reassPresent null tp so = some (fin, tp', so') →
      Conn.view ⟨so', tp'⟩ = Conn.view ⟨so, tp⟩ := by
    intro tp h
    rw [reassPresent] at h
    dsimp only at h
    split at h
    · obtain ⟨⟩ := h
      rfl
    · generalize hso : (if so.ssCantRcvMore = true then so else _) = so₁ at h
      have hsnd : so₁.soSnd = so.soSnd := by
        rw [← hso]
        split_ifs <;> rfl
      split_ifs at h
      · obtain ⟨⟩ := h
        rfl
      · obtain ⟨⟩ := h
        rw [Conn.view, Conn.view, hsnd]
  cases ti with
  | none => exact hpresent tp h
  | some ti =>
      rw [tcpReass] at h
      split at h
      · obtain ⟨⟩ := h
        rfl
      · exact (hpresent _ h).trans rfl

theorem tcpDooption_view (mem : ℕ → Byte) (syn : Bool) (rt : Option Rtentry) (p : ℕ) (r : OptionState) :
    Conn.view ⟨(tcpDooption mem syn rt p r).1.so, (tcpDooption mem syn rt p r).1.tp⟩ = Conn.view ⟨r.so, r.tp⟩ := by
  rw [tcpDooption]
  dsimp only
  generalize (if optionUsed mem syn p = true then [p] else []) = used
  split_ifs
  · rfl
  · rfl
  · exact tcpMss_view rt r.so r.tp _
  · rfl
  · rfl
  · rfl

theorem tcpDooptions_view {mem : ℕ → Byte} {syn : Bool} {rt : Option Rtentry} {fuel cnt : ℕ} {r r' : OptionState}
    (h : tcpDooptions mem syn rt fuel cnt r = some r') : Conn.view ⟨r'.so, r'.tp⟩ = Conn.view ⟨r.so, r.tp⟩ := by
  let J : OptionState → Prop := fun q => Conn.view ⟨q.so, q.tp⟩ = Conn.view ⟨r.so, r.tp⟩
  have hstep : ∀ (p : ℕ) (q q' : OptionState) (next : Option ℕ), tcpDooption mem syn rt p q = (q', next) → J q → J q' := by
    intro p q q' next hact hq
    have hone := tcpDooption_view mem syn rt p q
    rw [hact] at hone
    exact hone.trans hq
  exact walk_invariant (I := fun _ => J) (J := J) (fun _ _ _ hq => hq) (fun p q q' _ hq hact => hstep p q q' none hact hq)
    (fun p q q' len _ hq hact => hstep p q q' (some len) hact hq) rfl h

theorem OutRound.options_view (r : OutRound) (so : Socket) (rt : Option Rtentry) :
    Conn.view ⟨(r.options so rt).1, (r.options so rt).2.1⟩ =
      { Conn.view ⟨so, r.tp⟩ with nxt := if r.flags.thSyn then r.tp.iss else r.tp.sndNxt } := by
  rw [options]
  by_cases hsyn : r.flags.thSyn = true
  · rw [if_pos hsyn, if_pos hsyn]
    by_cases hopt : r.tp.tfNoOpt = true
    · dsimp only
      rw [if_pos hopt]
      rfl
    · dsimp only
      rw [if_neg hopt]
      exact tcpMss_view rt so { r.tp with sndNxt := r.tp.iss } 0
  · rw [if_neg hsyn, if_neg hsyn]
    rfl

/-! ## Without an acknowledgement -/

/-- The states before the SYN is acknowledged. -/
def TcpState.Opens (s : TcpState) : Prop := s = .synSent ∨ s = .synReceived

/-- A change of the state that says nothing about SYN and FIN. -/
structure TcpState.Moves (a b : TcpState) : Prop where
  opens : b.Opens → a.Opens
  done : b.FinDone → a.FinDone

/-- Nothing but the state is changed. -/
structure SendView.Kept (v w : SendView) : Prop where
  eq : w = { v with state := w.state }
  moves : v.state.Moves w.state

theorem TcpState.Moves.refl (a : TcpState) : a.Moves a := ⟨id, id⟩

theorem TcpState.Moves.trans {a b c : TcpState} (h : a.Moves b) (h' : b.Moves c) : a.Moves c :=
  ⟨fun hc => h.opens (h'.opens hc), fun hc => h.done (h'.done hc)⟩

/-- A state that is behind the opening and does not say that our FIN is acknowledged. -/
theorem TcpState.Moves.of_not {a b : TcpState} (hopens : ¬ b.Opens) (hdone : ¬ b.FinDone) : a.Moves b :=
  ⟨fun hb => absurd hb hopens, fun hb => absurd hb hdone⟩

instance (s : TcpState) : Decidable s.Opens := inferInstanceAs (Decidable (_ ∨ _))

instance (a b : TcpState) : Decidable (a.Moves b) :=
  decidable_of_iff ((b.Opens → a.Opens) ∧ (b.FinDone → a.FinDone)) ⟨fun h => ⟨h.1, h.2⟩, fun h => ⟨h.1, h.2⟩⟩

namespace SendView.Kept

theorem of_eq {v w : SendView} (h : w = v) : v.Kept w := by
  subst h
  exact ⟨rfl, .refl _⟩

theorem state {v : SendView} {b : TcpState} (h : v.state.Moves b) : v.Kept { v with state := b } := ⟨rfl, h⟩

theorem trans {v w u : SendView} (h : v.Kept w) (h' : w.Kept u) : v.Kept u := by
  refine ⟨?_, h.moves.trans h'.moves⟩
  rw [h'.eq, h.eq]

end SendView.Kept

/-- `V` holds also with the `snd_nxt` that `tcp_output` returns to. -/
def Caller.In (V : SendView → Prop) (v : SendView) : Caller → Prop
  | .fastRexmt onxt => V { v with nxt := onxt }
  | .plain | .forced => True

/-- What a part leaves behind: `V` holds of what is sent from, and `G` holds if the connection is closed. -/
def ConnRun.In (V : SendView → Prop) (G : Prop) : ConnRun → Prop
  | .idle s => V s.view
  | .ack x => V x.view ∧ ¬ x.view.state.Opens
  | .output s caller _ => V s.view ∧ caller.In V s.view
  | .gone => G

/-- The same of a part that may stop with a fault. -/
def Ends (V : SendView → Prop) (G : Prop) (o : Option ConnRun) : Prop := ∀ r ∈ o, r.In V G

variable {V W : SendView → Prop} {G : Prop} {o : Option ConnRun} {needoutput : Bool}

theorem ends_none : Ends V G none := by
  rintro r ⟨⟩

theorem ends_idle (h : V s.view) : Ends V G (some (.idle s)) := by
  rintro r ⟨⟩
  exact h

theorem ends_gone (h : G) : Ends V G (some .gone) := by
  rintro r ⟨⟩
  exact h

/-- A call of `tcp_output`. -/
theorem ends_callOutput {caller : Caller} (h : V s.view) (hcaller : caller.In V s.view) :
    Ends V G (some (s.callOutput caller)) := by
  rintro r ⟨⟩
  have hview : Conn.view { s with tp := s.tp.outputIdle } = s.view := s.tp.outputIdle_view s.so
  exact ⟨hview.symm ▸ h, hview.symm ▸ hcaller⟩

theorem ConnRun.In.imp {H : Prop} {r : ConnRun} (h : r.In V G) (hVW : ∀ v, V v → W v) (hGH : G → H) : r.In W H := by
  cases r with
  | idle s => exact hVW _ h
  | ack x => exact ⟨hVW _ h.1, h.2⟩
  | output s caller i =>
      refine ⟨hVW _ h.1, ?_⟩
      cases caller with
      | fastRexmt onxt => exact hVW _ h.2
      | plain | forced => trivial
  | gone => exact hGH h

theorem Ends.imp {H : Prop} (h : Ends V G o) (hVW : ∀ v, V v → W v) (hGH : G → H) : Ends W H o :=
  fun r hr => (h r hr).imp hVW hGH

theorem Ends.mono (h : Ends V G o) (hVW : ∀ v, V v → W v) : Ends W G o := h.imp hVW id

namespace Incoming

theorem recent_view (x : Incoming) (len : BitVec 32) : (x.recent len).view = x.view := by
  rw [recent]
  split_ifs <;> rfl

theorem step6_view (x : Incoming) : x.step6.view = x.view := by
  rw [step6]
  split_ifs <;> rfl

theorem urgent_view (x : Incoming) : x.urgent.view = x.view := by
  rw [urgent]
  dsimp only
  split_ifs <;> rfl

theorem dodata_view {fin : Bool} (h : x.dodata = some (y, fin)) : y.view = x.view := by
  rw [dodata] at h
  split_ifs at h
  · obtain ⟨⟩ := h
    rfl
  · obtain ⟨⟨fin', tp, so⟩, hreass, heq⟩ := Option.map_eq_some_iff.mp h
    obtain ⟨⟩ := heq
    have hview := tcpReass_view hreass
    exact hview
  · obtain ⟨⟩ := h
    rfl

/-- A FIN of the peer. -/
theorem finState_kept (x : Incoming) : x.view.Kept x.finState.view := by
  have hwait : ∀ b : TcpState, ¬ b.Opens → ¬ b.FinDone → x.view.Kept { x.view with state := b } :=
    fun b hopens hdone => .state (.of_not hopens hdone)
  rw [finState]
  split
  · exact hwait .closeWait (by decide) (by decide)
  · exact hwait .closeWait (by decide) (by decide)
  · exact hwait .closing (by decide) (by decide)
  · rename_i hstate
    have hmoves : x.view.state.Moves .timeWait := ⟨fun h => absurd h (by decide), fun _ => .inl hstate⟩
    exact .state hmoves
  · exact .of_eq rfl
  · exact .of_eq rfl

theorem fin_kept (x : Incoming) : x.view.Kept x.fin.view := by
  rw [fin]
  split_ifs
  · exact x.finState_kept
  · exact finState_kept { x with so := x.so.cantRcvMore, tp := { x.tp with tfAckNow := true, rcvNxt := x.tp.rcvNxt + 1 } }

/-- From `step6` on. -/
theorem finish_kept (x : Incoming) (needoutput : Bool) : Ends x.view.Kept G (x.finish needoutput) := by
  intro r hr
  obtain ⟨⟨y, fin⟩, hdata, rfl⟩ := Option.map_eq_some_iff.mp hr
  have hview : y.view = x.view := (dodata_view hdata).trans (x.step6.urgent_view.trans x.step6_view)
  have hend : x.view.Kept (if fin then y.fin else y.toConn).view := by
    split_ifs
    · exact (SendView.Kept.of_eq hview).trans y.fin_kept
    · exact .of_eq hview
  dsimp only
  generalize (if fin then y.fin else y.toConn) = s at hend ⊢
  split_ifs
  · have hcall : Ends x.view.Kept G (some (s.callOutput .plain)) := ends_callOutput hend trivial
    exact hcall _ rfl
  · exact hend

theorem dropafterack_kept {α : Type} {Q : α → Prop} : Leaves (Ends x.view.Kept G) Q (x.dropafterack (α := α)) := by
  rw [Incoming.dropafterack]
  split_ifs
  · exact ends_idle (.of_eq rfl)
  · exact ends_callOutput (.of_eq rfl) trivial

theorem listen_kept (x : Incoming) : Ends x.view.Kept True (some x.listen) := by
  rw [listen]
  split_ifs
  · exact ends_idle (.of_eq rfl)
  · exact ends_gone trivial
  · exact ends_idle (.of_eq rfl)

theorem paws_view (x : Incoming) : Leaves (Ends x.view.Kept True) (fun y => y.view = x.view) x.paws := by
  rw [paws]
  split_ifs
  · rfl
  · exact dropafterack_kept
  · rfl

theorem trimLeft_view (so : Socket) (tp : Tcpcb) (ti : Tcpiphdr) (tiflags : TcpFlags) (m : List Mbuf) :
    Conn.view ⟨so, (trimLeft mAdj tp ti tiflags m).1⟩ = Conn.view ⟨so, tp⟩ := by
  rw [trimLeft]
  dsimp only
  split_ifs <;> rfl

/-- Trimming, where it does not end the connection. -/
theorem trim_view (so : Socket) (tp : Tcpcb) (ti : Tcpiphdr) (tiflags : TcpFlags) (m : List Mbuf) :
    match trim mAdj so tp ti tiflags m with
    | .output tp' | .pass tp' _ _ _ => Conn.view ⟨so, tp'⟩ = Conn.view ⟨so, tp⟩
    | _ => True := by
  have hleft := trimLeft_view so tp ti tiflags m
  rw [trim]
  generalize trimLeft mAdj tp ti tiflags m = l at hleft ⊢
  obtain ⟨tp₁, ti₁, tiflags₁, m₁⟩ := l
  dsimp only at hleft ⊢
  rw [trimRight]
  simp only [cutRight, Net.dropafterack]
  split_ifs <;> first | exact hleft | trivial

theorem trimmed_view (x : Incoming) : Leaves (Ends x.view.Kept True) (fun y => y.view = x.view) x.trimmed := by
  have htrim := trim_view x.so x.tp x.ti x.tiflags x.m
  rw [trimmed]
  split
  · exact ends_idle (.of_eq (trimLeft_view x.so x.tp x.ti x.tiflags x.m))
  · rename_i heq
    rw [heq] at htrim
    exact ends_callOutput (.of_eq htrim) trivial
  · exact ends_gone trivial
  · exact ends_gone trivial
  · rename_i heq
    rw [heq] at htrim
    exact htrim

theorem checkFlags_view (x : Incoming) : Leaves (Ends x.view.Kept True) (fun y => y.view = x.view) x.checkFlags := by
  rw [checkFlags]
  split_ifs
  · exact ends_gone trivial
  · exact ends_gone trivial
  · rfl
  · exact ends_idle (.of_eq rfl)

theorem established_view (x : Incoming) :
    Leaves (Ends V G) (fun y => y.view = { x.view with state := .established }) x.established := by
  rw [established]
  dsimp only
  split
  · exact ends_none
  · rename_i hreass
    exact (tcpReass_view hreass).trans (Tcpcb.scaled_view { x.tp with tState := .established } x.so.isConnected)

theorem synReceived_kept (x : Incoming) (hstate : x.view.state ≠ .synSent) :
    Leaves (Ends x.view.Kept True) (fun y => x.view.Kept y.view ∧ ¬ y.view.state.Opens) x.synReceived := by
  have hopens : ¬ TcpState.established.Opens := by decide
  rw [synReceived]
  split_ifs with hsyn
  · exact ends_idle (.of_eq rfl)
  · refine x.established_view.bind ?_
    intro y hy
    rw [leaves_pure]
    change x.view.Kept y.view ∧ ¬ y.view.state.Opens
    rw [hy]
    exact ⟨.state (.of_not hopens (by decide)), hopens⟩
  · refine ⟨.of_eq rfl, ?_⟩
    rintro (hopen | hopen)
    · exact hstate hopen
    · exact hsyn hopen

/-! ## With an acknowledgement -/

end Incoming

/-- The numbers when `ack` is acknowledged. -/
structure SendView.Advanced (v w : SendView) (ack : BitVec 32) : Prop where
  una : w.una = ack
  nxt : w.nxt = v.nxt ∧ v.nxt = v.max ∨ w.nxt = if seqLT v.nxt ack then ack else v.nxt
  max : w.max = v.max
  iss : w.iss = v.iss
  sentFin : w.sentFin = v.sentFin
  opens : ¬ w.state.Opens

/-- `ack` is acknowledged, and leaves the send buffer. -/
structure SendView.Acked (v w : SendView) (ack : BitVec 32) : Prop extends v.Advanced w ack where
  snd : SbInv v.snd → v.snd.bytes.length < 2 ^ 30 →
    SbInv w.snd ∧ w.snd.bytes = v.snd.bytes.drop (ack - v.una).toNat
  done : w.state.FinDone → v.state.FinDone ∨ (v.state.FinWaits ∧ v.snd.sbCc < ack - v.una)

/-- The SYN is acknowledged by the SYN of the peer. -/
structure SendView.SynAcked (v w : SendView) (ack : BitVec 32) : Prop extends v.Advanced w ack where
  synSent : v.state = .synSent
  new : ¬ seqLEQ ack v.iss ∧ ¬ seqGT ack v.max
  snd : w.snd = v.snd
  done : ¬ w.state.FinDone

theorem SendView.Kept.advanced {v w u : SendView} {ack : BitVec 32} (h : v.Advanced w ack) (hk : w.Kept u) :
    v.Advanced u ack := by
  have heq := hk.eq
  refine ⟨?_, ?_, ?_, ?_, ?_, fun hu => h.opens (hk.moves.opens hu)⟩
  · rw [heq]
    exact h.una
  · rw [heq]
    exact h.nxt
  · rw [heq]
    exact h.max
  · rw [heq]
    exact h.iss
  · rw [heq]
    exact h.sentFin

theorem SendView.Acked.kept {v w u : SendView} {ack : BitVec 32} (h : v.Acked w ack) (hk : w.Kept u) :
    v.Acked u ack := by
  refine ⟨hk.advanced h.toAdvanced, ?_, fun hu => h.done (hk.moves.done hu)⟩
  rw [hk.eq]
  exact h.snd

theorem SendView.SynAcked.kept {v w u : SendView} {ack : BitVec 32} (h : v.SynAcked w ack) (hk : w.Kept u) :
    v.SynAcked u ack := by
  refine ⟨hk.advanced h.toAdvanced, h.synSent, h.new, ?_, fun hu => h.done (hk.moves.done hu)⟩
  rw [hk.eq]
  exact h.snd

/-- What `sbdrop` does to the send buffer. -/
theorem sbdrop_view {sb sb' : SockBuf} {k : BitVec 32} (hdrop : sbdrop sb k.toInt = some sb') (hk : 0 ≤ k.toInt)
    (h : SbInv { sb with sbHiwat := 0, sbMbmax := 0, sbLock := false }) (hsmall : sb.bytes.length < 2 ^ 30) :
    SbInv { sb' with sbHiwat := 0, sbMbmax := 0, sbLock := false } ∧ sb'.bytes = sb.bytes.drop k.toNat := by
  have hsb : SbInv sb := ⟨h.tally, h.records⟩
  obtain ⟨hinv, hbytes⟩ := hsb.sbdrop (by omega) hdrop
  have hnat : k.toInt.toNat = k.toNat := by
    rw [BitVec.toInt_eq_toNat_cond] at hk ⊢
    split_ifs at hk ⊢
    · exact Int.toNat_natCast _
    · omega
  exact ⟨⟨hinv.tally, hinv.records⟩, hnat ▸ hbytes⟩

theorem SbInv.toNat_sbCc {sb : SockBuf} (h : SbInv sb) (hsmall : sb.bytes.length < 2 ^ 30) :
    sb.sbCc.toNat = sb.bytes.length := by
  rw [SockBuf.bytes, length_chainBytes] at hsmall ⊢
  rw [h.tally.cc, BitVec.toNat_ofNat, Nat.mod_eq_of_lt (by omega)]

namespace Incoming

/-- What is left behind when something is acknowledged, or nothing is. -/
def AckView (x : Incoming) (w : SendView) : Prop :=
  (¬ x.AckNew ∧ (x.view.Kept w ∨ ({ x.view with nxt := x.view.una } : SendView).Kept w)) ∨
    (x.AckNew ∧ x.view.Acked w x.ti.tiAck)

theorem duplicate_ackView (x : Incoming) (hold : ¬ x.AckNew) :
    Leaves (Ends x.AckView G) (fun y => y.1.view = x.view) x.duplicate := by
  rw [duplicate]
  dsimp only
  split_ifs with hsame hnot hthird
  · rfl
  · rw [fastRexmt]
    split
    · exact ends_none
    · have hack : x.ti.tiAck = x.tp.sndUna := by
        by_contra hne
        exact hnot (.inr hne)
      refine ends_callOutput (.inl ⟨hold, .inr ?_⟩) (.inl ⟨hold, .inl (.of_eq ?_)⟩)
      · exact .of_eq (congrArg (fun n => ({ x.view with nxt := n } : SendView)) hack)
      · rfl
  · exact ends_callOutput (.inl ⟨hold, .inl (.of_eq rfl)⟩) trivial
  · rfl
  · rfl

/-- What is acknowledged leaves the send buffer. -/
theorem dropAcked_view {fin : Bool} (hnew : 0 ≤ (x.ti.tiAck - x.tp.sndUna).toInt) (hopens : ¬ x.view.state.Opens)
    (h : x.dropAcked = some (y, fin)) :
    x.view.Acked y.view x.ti.tiAck ∧ y.view.state = x.view.state ∧
      (fin = true → x.so.soSnd.sbCc < x.ti.tiAck - x.tp.sndUna) := by
  obtain ⟨soSnd, hdrop, heq⟩ := Option.map_eq_some_iff.mp h
  obtain ⟨⟩ := heq
  refine ⟨⟨⟨rfl, .inr rfl, rfl, rfl, rfl, hopens⟩, ?_, fun hdone => .inl hdone⟩, rfl, of_decide_eq_true⟩
  intro hinv hsmall
  have hsb : SbInv x.so.soSnd := ⟨hinv.tally, hinv.records⟩
  have hcc := hsb.toNat_sbCc hsmall
  by_cases hall : x.so.soSnd.sbCc < x.ti.tiAck - x.tp.sndUna
  · rw [if_pos (decide_eq_true hall)] at hdrop
    have hpos : 0 ≤ x.so.soSnd.sbCc.toInt := by
      have hlt : x.so.soSnd.bytes.length < 2 ^ 30 := hsmall
      rw [BitVec.toInt_eq_toNat_cond]
      split_ifs
      · exact Int.natCast_nonneg _
      · omega
    obtain ⟨hinv', hbytes⟩ := sbdrop_view hdrop hpos hinv hsmall
    refine ⟨hinv', ?_⟩
    have hlt : x.so.soSnd.sbCc.toNat < (x.ti.tiAck - x.tp.sndUna).toNat := hall
    change soSnd.bytes = x.so.soSnd.bytes.drop (x.ti.tiAck - x.tp.sndUna).toNat
    rw [hbytes, List.drop_eq_nil_of_le (by omega), List.drop_eq_nil_of_le (by omega)]
  · rw [if_neg (by simpa using hall)] at hdrop
    have hview := sbdrop_view hdrop hnew hinv hsmall
    exact hview

/-- The state behind an acknowledgement. -/
theorem ackState_view (x : Incoming) (fin : Bool) :
    Leaves (Ends x.view.Kept (x.view.state = .lastAck ∧ fin = true))
      (fun y => y.view = { x.view with state := y.view.state } ∧ (y.view.state.Opens → x.view.state.Opens) ∧
        (y.view.state.FinDone → x.view.state.FinDone ∨ (x.view.state.FinWaits ∧ fin = true)))
      (x.ackState fin) := by
  rw [ackState]
  split
  · rename_i hstate
    have hopens : ¬ TcpState.finWait2.Opens := by decide
    split_ifs with hfin hcant
    · exact ⟨rfl, fun h => absurd h hopens, fun _ => .inr ⟨.inl hstate, hfin⟩⟩
    · exact ⟨rfl, fun h => absurd h hopens, fun _ => .inr ⟨.inl hstate, hfin⟩⟩
    · exact ⟨rfl, id, .inl⟩
  · rename_i hstate
    have hopens : ¬ TcpState.timeWait.Opens := by decide
    split_ifs with hfin
    · exact ⟨rfl, fun h => absurd h hopens, fun _ => .inr ⟨.inr (.inl hstate), hfin⟩⟩
    · exact ⟨rfl, id, .inl⟩
  · rename_i hstate
    split_ifs with hfin
    · exact ends_gone ⟨hstate, hfin⟩
    · exact ⟨rfl, id, .inl⟩
  · exact dropafterack_kept
  · exact ⟨rfl, id, .inl⟩

/-- The connection when `ti_ack` is new. -/
theorem newAck_view (x : Incoming) : Conn.view ⟨x.so,
    ((x.tp.endDupacks.timeAck x.tsPresent x.tsEcr x.env.tcpNow x.ti.tiAck).ackTimer x.ti.tiAck).openWindow⟩ =
      x.view := by
  have htime := x.tp.endDupacks.timeAck_view x.so x.tsPresent x.tsEcr x.env.tcpNow x.ti.tiAck
  exact (Tcpcb.ackTimer_view _ x.so x.ti.tiAck).trans htime

theorem acknowledge_view (x : Incoming) (hopens : ¬ x.view.state.Opens) :
    Leaves (Ends x.AckView (x.AckNew ∧ x.view.state.FinWaits ∧ x.so.soSnd.sbCc < x.ti.tiAck - x.tp.sndUna))
      (fun y => x.AckView y.1.view)
      x.acknowledge := by
  rw [acknowledge]
  dsimp only
  split_ifs with hold hbehind
  · have hnot : ¬ x.AckNew := fun hnew => hnew.1 hold
    exact (duplicate_ackView x hnot).mono fun y hy => .inl ⟨hnot, .inl (.of_eq hy)⟩
  · have hnot : ¬ x.AckNew := fun hnew => hnew.2 hbehind
    rw [Incoming.dropafterack]
    split_ifs
    · exact ends_idle (.inl ⟨hnot, .inl (.of_eq rfl)⟩)
    · exact ends_callOutput (.inl ⟨hnot, .inl (.of_eq rfl)⟩) trivial
  · have hnew : x.AckNew := ⟨hold, hbehind⟩
    have hpos : 0 ≤ (x.ti.tiAck - x.tp.sndUna).toInt := by
      unfold seqLEQ at hold
      omega
    have hview := x.newAck_view
    generalize ((x.tp.endDupacks.timeAck x.tsPresent x.tsEcr x.env.tcpNow x.ti.tiAck).ackTimer x.ti.tiAck).openWindow = tp
      at hview ⊢
    have huna : tp.sndUna = x.tp.sndUna := congrArg SendView.una hview
    split
    · exact ends_none
    · rename_i y fin hdrop
      obtain ⟨hacked, hstate, hfin⟩ := dropAcked_view (x := { x with tp }) (huna ▸ hpos)
        (show ¬ TcpState.Opens (Conn.view ⟨x.so, tp⟩).state by rw [hview]; exact hopens) hdrop
      have hxtp : ({ x with tp } : Incoming).view = x.view := hview
      rw [hxtp] at hacked hstate
      have hfin : fin = true → x.so.soSnd.sbCc < x.ti.tiAck - x.tp.sndUna := fun h => huna ▸ hfin h
      have hclosed : y.view.state = .lastAck ∧ fin = true →
          x.AckNew ∧ x.view.state.FinWaits ∧ x.so.soSnd.sbCc < x.ti.tiAck - x.tp.sndUna :=
        fun h => ⟨hnew, .inr (.inr (hstate.symm.trans h.1)), hfin h.2⟩
      have hstep := y.ackState_view fin
      generalize y.ackState fin = z at hstep ⊢
      cases z with
      | error o => exact Ends.imp hstep (fun w hw => .inr ⟨hnew, hacked.kept hw⟩) hclosed
      | ok z =>
          obtain ⟨heq, hzopens, hzdone⟩ := hstep
          refine .inr ⟨hnew, ⟨⟨?_, ?_, ?_, ?_, ?_, fun h => hacked.opens (hzopens h)⟩, ?_, ?_⟩⟩
          · rw [heq]
            exact hacked.una
          · rw [heq]
            exact hacked.nxt
          · rw [heq]
            exact hacked.max
          · rw [heq]
            exact hacked.iss
          · rw [heq]
            exact hacked.sentFin
          · rw [heq]
            exact hacked.snd
          · intro hdone
            rcases hzdone hdone with hdone | ⟨hwaits, hf⟩
            · exact hacked.done hdone
            · exact .inr ⟨hstate ▸ hwaits, hfin hf⟩

theorem established_advanced (x : Incoming) {v : SendView} {ack : BitVec 32}
    (h : v.SynAcked { x.view with state := .established } ack) : Leaves (Ends V G) (fun y => v.SynAcked y.view ack) x.established :=
  x.established_view.mono fun _ hy => hy ▸ h

theorem trimSyn_view (x : Incoming) : x.trimSyn.view = x.view := by
  rw [trimSyn]
  dsimp only
  split_ifs <;> rfl

/-- In `TCPS_SYN_SENT`. -/
theorem synSent_view (x : Incoming) (hstate : x.view.state = .synSent) :
    Leaves (Ends x.view.Kept True) (fun y => x.view.Kept y.view ∨ x.view.SynAcked y.view x.ti.tiAck) x.synSent := by
  have hnot : ¬ TcpState.established.Opens ∧ ¬ TcpState.established.FinDone := by decide
  rw [synSent]
  dsimp only
  by_cases hbad : x.tiflags.thAck = true ∧ (seqLEQ x.ti.tiAck x.tp.iss ∨ seqGT x.ti.tiAck x.tp.sndMax)
  · rw [if_pos hbad]
    exact ends_idle (.of_eq rfl)
  rw [if_neg hbad]
  by_cases hrst : x.tiflags.thRst = true
  · rw [if_pos hrst, leaves_throw]
    split_ifs
    · exact ends_gone trivial
    · exact ends_idle (.of_eq rfl)
  rw [if_neg hrst]
  by_cases hsyn : ¬ x.tiflags.thSyn = true
  · rw [if_pos hsyn]
    exact ends_idle (.of_eq rfl)
  rw [if_neg hsyn]
  by_cases hack : x.tiflags.thAck = true
  · rw [if_pos hack]
    have hnew : ¬ seqLEQ x.ti.tiAck x.tp.iss ∧ ¬ seqGT x.ti.tiAck x.tp.sndMax :=
      ⟨fun h => hbad ⟨hack, .inl h⟩, fun h => hbad ⟨hack, .inr h⟩⟩
    have hgt : seqGT x.ti.tiAck x.tp.iss := by
      have hleq := hnew.1
      unfold seqLEQ at hleq
      unfold seqGT
      omega
    rw [if_pos ⟨hack, hgt⟩]
    refine (established_advanced _ (?_ : SendView.SynAcked x.view _ x.ti.tiAck)).bind ?_
    · exact ⟨⟨rfl, .inr rfl, rfl, rfl, rfl, hnot.1⟩, hstate, hnew, rfl, hnot.2⟩
    · intro y hy
      rw [leaves_pure, trimSyn_view]
      refine .inr ?_
      split_ifs
      · have hview := tcpXmitTimer_view y.so y.tp y.tp.tRtt
        change x.view.SynAcked (Conn.view ⟨y.so, _⟩) _
        rw [hview]
        exact hy
      · exact hy
  · rw [if_neg hack, if_neg fun h => hack h.1, leaves_pure, trimSyn_view]
    have hmoves : x.view.state.Moves .synReceived := ⟨fun _ => .inl hstate, fun h => absurd h (by decide)⟩
    exact .inl (.state hmoves)

/-- The short way for an acknowledgement. -/
theorem acked_view (x y : Incoming) (hy : y.view = x.view) (hti : y.ti = x.ti) (hfast : x.fastAck = true) :
    Ends (fun w => x.view.Acked w x.ti.tiAck) G y.acked := by
  obtain ⟨hpred, -, hnew, -, -⟩ := of_decide_eq_true hfast
  obtain ⟨hstate, -, -, -, -, -, -, -, -, -, hmax⟩ := of_decide_eq_true hpred
  have hopens : ¬ x.view.state.Opens := by
    change ¬ x.tp.tState.Opens
    rw [hstate]
    decide
  intro r hr
  obtain ⟨soSnd, hdrop, hret⟩ := Option.bind_eq_some_iff.mp hr
  obtain rfl := Option.some.inj hret
  have htime := y.tp.timeAck_view y.so y.tsPresent y.tsEcr y.env.tcpNow y.ti.tiAck
  have hview := (Tcpcb.ackTimer_view _ y.so y.ti.tiAck).trans (htime.trans hy)
  have huna : y.tp.sndUna = x.tp.sndUna := congrArg SendView.una hy
  have hsnd : y.view.snd = x.view.snd := congrArg SendView.snd hy
  generalize (y.tp.timeAck y.tsPresent y.tsEcr y.env.tcpNow y.ti.tiAck).ackTimer y.ti.tiAck = tp at hview ⊢
  have hst : tp.tState = x.view.state := congrArg SendView.state hview
  have hnxt : tp.sndNxt = x.view.nxt := congrArg SendView.nxt hview
  have hmax' : tp.sndMax = x.view.max := congrArg SendView.max hview
  have hiss : tp.iss = x.view.iss := congrArg SendView.iss hview
  have hfin : tp.tfSentFin = x.view.sentFin := congrArg SendView.sentFin hview
  have hacked : x.view.Acked (Conn.view ⟨{ y.so with soSnd }, { tp with sndUna := y.ti.tiAck }⟩) x.ti.tiAck := by
    refine ⟨⟨congrArg Tcpiphdr.tiAck hti, .inl ⟨hnxt, hmax⟩, hmax', hiss, hfin, ?_⟩, ?_, fun hdone => .inl ?_⟩
    · change ¬ tp.tState.Opens
      rw [hst]
      exact hopens
    · rw [← hsnd]
      intro hinv hsmall
      have hpos : 0 ≤ (y.ti.tiAck - y.tp.sndUna).toInt := by
        rw [hti, huna]
        unfold seqGT at hnew
        omega
      have hdropped := sbdrop_view hdrop hpos hinv hsmall
      rw [hti, huna] at hdropped
      exact hdropped
    · exact hst ▸ hdone
  split_ifs
  · have hcall : Ends (fun w => x.view.Acked w x.ti.tiAck) G
        (some (Conn.callOutput ⟨{ y.so with soSnd }, { tp with sndUna := y.ti.tiAck }⟩ .plain)) := ends_callOutput hacked trivial
    exact hcall _ rfl
  · exact hacked

theorem predict_view (x : Incoming) :
    Leaves (Ends (fun w => x.view.Kept w ∨ (x.fastAck = true ∧ x.view.Acked w x.ti.tiAck)) True) (fun y => y.view = x.view)
      x.predict := by
  have hrecent := x.recent_view (x.ti.tiLen.signExtend 32)
  have hti : (x.recent (x.ti.tiLen.signExtend 32)).ti = x.ti := by
    rw [recent]
    split_ifs <;> rfl
  rw [predict]
  dsimp only
  split_ifs with hpred hfast hdata
  · exact (x.acked_view _ hrecent hti hfast).mono fun w hw => .inr ⟨hfast, hw⟩
  · exact ends_idle (.inl (.of_eq hrecent))
  · exact hrecent
  · rfl

theorem AckView.kept {v w : SendView} (h : x.AckView v) (hk : v.Kept w) : x.AckView w := by
  rcases h with ⟨hold, h | h⟩ | ⟨hnew, h⟩
  · exact .inl ⟨hold, .inl (h.trans hk)⟩
  · exact .inl ⟨hold, .inr (h.trans hk)⟩
  · exact .inr ⟨hnew, h.kept hk⟩

/-- From `ti_ack` on. -/
theorem inputAck_view (x : Incoming) (hopens : ¬ x.view.state.Opens) :
    Ends x.AckView (x.AckNew ∧ x.view.state.FinWaits ∧ x.so.soSnd.sbCc < x.ti.tiAck - x.tp.sndUna) x.inputAck := by
  refine Leaves.leave ((x.acknowledge_view hopens).bind ?_)
  rintro ⟨y, needoutput⟩ hy
  exact (y.finish_kept needoutput).mono fun w hw => hy.kept hw

end Incoming

theorem Conn.incoming_view {a : Arrival} {env : InputEnv} (hx : s.incoming a env = some x) : x.view = s.view := by
  rw [incoming] at hx
  dsimp only at hx
  generalize (if a.ti.tiFlags.thSyn = true then a.ti.tiWin.setWidth 32 else a.ti.tiWin.setWidth 32 <<< s.tp.sndScale) = tiwin at hx
  split_ifs at hx
  · obtain ⟨⟩ := hx
    rfl
  · obtain ⟨⟩ := hx
    rfl
  · obtain ⟨r, hopt, hr⟩ := Option.map_eq_some_iff.mp hx
    obtain ⟨⟩ := hr
    have hview := tcpDooptions_view hopt
    exact hview

/-- What is left behind by `tcp_input` up to `ti_ack`. -/
def Conn.InputView (s : Conn) (a : Arrival) (env : InputEnv) (w : SendView) : Prop :=
  s.view.Kept w ∨ (∃ ack, s.view.SynAcked w ack) ∨ ∃ x ∈ s.incoming a env, x.fastAck = true ∧ s.view.Acked w x.ti.tiAck

/-- Up to `ti_ack`. -/
theorem Conn.input_view (s : Conn) (a : Arrival) (env : InputEnv) : Ends (s.InputView a env) True (s.input a env) := by
  rw [input]
  split_ifs with hclosed
  · exact ends_idle (.inl (.of_eq rfl))
  · intro r hr
    obtain ⟨x, hx, hr⟩ := Option.bind_eq_some_iff.mp hr
    have hview : x.view = s.view := incoming_view hx
    have hfast : ∀ w, x.view.Kept w ∨ (x.fastAck = true ∧ x.view.Acked w x.ti.tiAck) → s.InputView a env w := by
      rw [hview]
      rintro w (h | ⟨hfast, h⟩)
      · exact .inl h
      · exact .inr (.inr ⟨x, hx, hfast, h⟩)
    refine Leaves.leave (E := Ends (s.InputView a env) True) ?_ r hr
    refine (x.predict_view.mono_left fun o ho => Ends.mono ho hfast).bind ?_
    intro y hy
    have hy : Conn.view ⟨y.so, setRcvWnd y.so y.tp⟩ = s.view := Eq.trans hy hview
    generalize hz : ({ y with tp := setRcvWnd y.so y.tp } : Incoming) = z
    have hz : z.view = s.view := hz ▸ hy
    have hkept : ∀ y : Incoming, s.view.Kept y.view → ∀ o, Ends y.view.Kept True o → Ends (s.InputView a env) True o :=
      fun y hy o ho => ho.mono fun w hw => .inl (hy.trans hw)
    dsimp only
    split
    · exact hkept z (.of_eq hz) _ z.listen_kept
    · rename_i hstate
      refine ((z.synSent_view hstate).mono_left (hkept z (.of_eq hz))).bind fun w hw => ?_
      refine (w.finish_kept false).mono fun u hu => ?_
      rw [hz] at hw
      rcases hw with hw | hw
      · exact .inl (hw.trans hu)
      · exact .inr (.inl ⟨_, hw.kept hu⟩)
    · rename_i hlisten hsent
      refine (z.paws_view.mono_left (hkept z (.of_eq hz))).bind fun w hw => ?_
      have hw : w.view = s.view := hw.trans hz
      refine (w.trimmed_view.mono_left (hkept w (.of_eq hw))).bind fun w hw' => ?_
      have hw := hw'.trans hw
      have hrecent := w.recent_view (w.ti.tiLen.signExtend 32 + if w.tiflags.thSyn = true ∨ w.tiflags.thFin = true then 1 else 0)
      generalize w.recent _ = w at hrecent ⊢
      have hw := hrecent.trans hw
      refine (w.checkFlags_view.mono_left (hkept w (.of_eq hw))).bind fun w hw' => ?_
      have hw := hw'.trans hw
      have hstate : w.view.state ≠ .synSent := by
        rw [hw, ← hz]
        exact hsent
      refine ((w.synReceived_kept hstate).mono_left (hkept w (.of_eq hw))).bind fun w' hw' => ?_
      rintro r ⟨⟩
      exact ⟨.inl (hw ▸ hw'.1), hw'.2⟩

/-! ## The other calls -/

/-- A chain is appended to the send buffer. -/
structure SendView.Appended (v w : SendView) (m : List Mbuf) : Prop where
  eq : w = { v with snd := w.snd }
  snd : SbInv v.snd → SbInv w.snd ∧ w.snd.bytes = v.snd.bytes ++ chainBytes m

theorem sbappend_view {tp' : Tcpcb} (hview : Conn.view ⟨s.so, tp'⟩ = s.view) (m : List Mbuf) :
    s.view.Appended (Conn.view ⟨{ s.so with soSnd := sbappend s.so.soSnd m }, tp'⟩) m := by
  refine ⟨?_, fun hinv => ?_⟩
  · rw [← hview]
    rfl
  · have hsnd : SbInv s.so.soSnd := ⟨hinv.tally, hinv.records⟩
    obtain ⟨hsnd', hbytes⟩ := sbappend_spec hsnd m
    exact ⟨⟨hsnd'.tally, hsnd'.records⟩, hbytes⟩

/-- What is left behind by a call when nothing is under way. -/
def Conn.StartView (s : Conn) (c : ConnCall) (w : SendView) : Prop :=
  match c with
  | .input a env => s.InputView a env w
  | .usrreq (.send m) | .usrreq (.sendoob m) => s.view.Kept w ∨ s.view.Appended w m
  | _ => s.view.Kept w ∨ ({ s.view with nxt := s.view.una } : SendView).Kept w

namespace Conn

theorem usrclosed_kept {t : Conn} (h : s.usrclosed = some t) : s.view.Kept t.view := by
  obtain ⟨tState, hstate, rfl⟩ := Option.map_eq_some_iff.mp h
  have hmoves : s.view.state.Moves tState := by
    change s.tp.tState.Moves tState
    clear h
    generalize s.tp.tState = a at hstate
    cases a <;> cases hstate <;> decide
  have hview : Conn.view ⟨if TcpState.finWait2.num ≤ tState.num then s.so.isDisconnected else s.so,
      { s.tp with tState }⟩ = { s.view with state := tState } := by
    split_ifs <;> rfl
  rw [hview]
  exact .state hmoves

theorem closeOutput_kept (s : Conn) : Ends s.view.Kept True (some s.closeOutput) := by
  rw [closeOutput]
  split
  · exact ends_gone trivial
  · rename_i hclosed
    exact ends_callOutput (usrclosed_kept hclosed) trivial

theorem disconnect_kept (s : Conn) (lingerZero : Bool) : Ends s.view.Kept True (s.disconnect lingerZero) := by
  rw [disconnect]
  split_ifs
  · exact ends_gone trivial
  · exact ends_gone trivial
  · intro r hr
    obtain ⟨soRcv, -, rfl⟩ := Option.map_eq_some_iff.mp hr
    have hclose := closeOutput_kept ⟨{ s.so.isDisconnecting with soRcv }, s.tp⟩
    exact hclose _ rfl

theorem usrreq_view (s : Conn) (req : UsrReq) : Ends (s.StartView (.usrreq req)) True (s.usrreq req) := by
  cases req with
  | detach lingerZero =>
      rw [usrreq]
      split_ifs
      · exact (s.disconnect_kept lingerZero).mono fun w hw => .inl hw
      · exact ends_gone trivial
  | listen =>
      have hmoves : s.view.state.Moves .listen := .of_not (by decide) (by decide)
      exact ends_idle (.inl (.state hmoves))
  | disconnect lingerZero => exact (s.disconnect_kept lingerZero).mono fun w hw => .inl hw
  | shutdown =>
      exact (closeOutput_kept ⟨{ s.so with ssCantSendMore := true }, s.tp⟩).mono fun w hw => .inl hw
  | rcvd => exact ends_callOutput (.inl (.of_eq rfl)) trivial
  | send m => exact ends_callOutput (.inr (sbappend_view rfl m)) trivial
  | abort => exact ends_gone trivial
  | sendoob m =>
      rw [usrreq]
      split_ifs
      · exact ends_idle (.inl (.of_eq rfl))
      · exact ends_callOutput (.inr (sbappend_view (s := s) rfl m)) trivial
  | other => exact ends_idle (.inl (.of_eq rfl))

theorem timers_view (s : Conn) (timer : TcpTimer) (soKeepalive : Bool) :
    Ends (fun w => s.view.Kept w ∨ ({ s.view with nxt := s.view.una } : SendView).Kept w) True
      (s.timers timer soKeepalive) := by
  cases timer with
  | msl2 =>
      rw [timers]
      split_ifs
      · exact ends_idle (.inl (.of_eq rfl))
      · exact ends_gone trivial
  | persist => exact ends_callOutput (.inl (.of_eq rfl)) trivial
  | keep =>
      rw [timers]
      split_ifs
      · exact ends_gone trivial
      · exact ends_gone trivial
      · exact ends_idle (.inl (.of_eq rfl))
      · exact ends_idle (.inl (.of_eq rfl))
  | rexmt =>
      rw [timers]
      dsimp only
      by_cases hmax : (tcpMAXRXTSHIFT : ℤ) < (s.tp.tRxtshift + 1).toInt
      · rw [if_pos hmax]
        exact ends_gone trivial
      · rw [if_neg hmax]
        intro r hr
        obtain ⟨tp, hrexmt, rfl⟩ := Option.map_eq_some_iff.mp hr
        obtain ⟨sndSsthresh, -, heq⟩ := Option.bind_eq_some_iff.mp hrexmt
        have hview : Conn.view ⟨s.so, tp⟩ = { s.view with nxt := s.view.una } := by
          obtain rfl := Option.some.inj heq
          split_ifs <;> rfl
        have hcall : Ends (fun w => s.view.Kept w ∨ ({ s.view with nxt := s.view.una } : SendView).Kept w) True
          (some (Conn.callOutput ⟨s.so, tp⟩ .plain)) := ends_callOutput (.inr (.of_eq hview)) trivial
        exact hcall _ rfl

theorem start_view (s : Conn) (c : ConnCall) : Ends (s.StartView c) True (s.start c) := by
  cases c with
  | input a env => exact s.input_view a env
  | ack | round => exact ends_none
  | output => exact ends_callOutput (.inl (.of_eq rfl)) trivial
  | usrreq req => exact s.usrreq_view req
  | timers timer soKeepalive => exact s.timers_view timer soKeepalive
  | slowtimo timer soKeepalive =>
      rw [start, slowtimo]
      dsimp only
      split_ifs
      · exact ends_idle (.inl (.of_eq rfl))
      · exact timers_view ⟨s.so, s.tp.setTimer timer (s.tp.tTimer timer - 1)⟩ timer soKeepalive
      · exact ends_idle (.inl (.of_eq rfl))
  | slowtimoEnd | socket | quench | notify => exact ends_idle (.inl (.of_eq rfl))
  | fasttimo =>
      rw [start]
      split_ifs
      · exact ends_callOutput (.inl (.of_eq rfl)) trivial
      · exact ends_idle (.inl (.of_eq rfl))

end Conn

/-! ## A round -/

/-- What is sent from, when nothing is wrong with it. The SYN and the FIN take a number each. -/
structure SendView.Inv (v : SendView) (moved finAcked : Bool) (fins : List (BitVec 32)) : Prop where
  snd : SbInv v.snd
  small : v.snd.bytes.length < 2 ^ 30
  opens : v.state.Opens → v.una = v.iss ∧ moved = false ∧ v.sentFin = false
  max_nonneg : 0 ≤ (v.max - v.una).toInt
  max_le : (v.max - v.una).toInt ≤ v.snd.bytes.length + (!moved).toNat + v.sentFin.toNat
  le_nxt : -v.sentFin.toNat ≤ (v.nxt - v.una).toInt
  nxt_le : (v.nxt - v.una).toInt ≤ (v.max - v.una).toInt
  fin : v.sentFin = true → finAcked = true ∨ ∃ f ∈ fins, 0 ≤ (f - v.una).toInt ∧ (f - v.una).toInt < (v.max - v.una).toInt
  done : v.state.FinDone → finAcked = true

/-- A round. -/
structure SendView.Sends (v w : SendView) (fins : List (BitVec 32)) : Prop where
  eq : w = { v with nxt := w.nxt, max := w.max, sentFin := w.sentFin }
  sentFin : v.sentFin = true → w.sentFin = true
  opens : w.state.Opens → w.sentFin = v.sentFin
  le_max : (v.max - v.una).toInt ≤ (w.max - v.una).toInt
  max_le : (w.max - v.una).toInt ≤ (v.max - v.una).toInt + w.sentFin.toNat - v.sentFin.toNat ∨
    (w.max - v.una).toInt ≤ v.snd.bytes.length + w.sentFin.toNat ∨
    (v.state.Opens ∧ (w.max - v.una).toInt ≤ v.snd.bytes.length + 1)
  le_nxt : -w.sentFin.toNat ≤ (w.nxt - v.una).toInt
  nxt_le : (w.nxt - v.una).toInt ≤ (w.max - v.una).toInt
  fin : w.sentFin = true → v.sentFin = true ∨
    ∃ f ∈ fins, 0 ≤ (f - v.una).toInt ∧ (f - v.una).toInt < (w.max - v.una).toInt

theorem SendView.Inv.sends {v w : SendView} {moved finAcked : Bool} {fins fins' : List (BitVec 32)}
    (h : v.Inv moved finAcked fins) (hs : v.Sends w fins') : w.Inv moved finAcked (fins' ++ fins) := by
  have huna : w.una = v.una := by rw [hs.eq]
  have hsnd : w.snd = v.snd := by rw [hs.eq]
  have hstate : w.state = v.state := by rw [hs.eq]
  have hiss : w.iss = v.iss := by rw [hs.eq]
  refine ⟨hsnd ▸ h.snd, hsnd ▸ h.small, ?_, ?_, ?_, ?_, ?_, ?_, ?_⟩
  · rw [huna, hiss]
    intro hopens
    obtain ⟨heq, hmoved, hfin⟩ := h.opens (hstate ▸ hopens)
    exact ⟨heq, hmoved, (hs.opens hopens).trans hfin⟩
  · rw [huna]
    exact h.max_nonneg.trans hs.le_max
  · rw [huna, hsnd]
    have hmax := h.max_le
    rcases hs.max_le with hle | hle | ⟨hopens, hle⟩
    · omega
    · omega
    · have hmoved := (h.opens hopens).2.1
      rw [hmoved, Bool.not_false, Bool.toNat_true]
      omega
  · rw [huna]
    exact hs.le_nxt
  · rw [huna]
    exact hs.nxt_le
  · rw [huna]
    intro hfin
    rcases hs.fin hfin with hfin | ⟨f, hf, hf₀, hf₁⟩
    · rcases h.fin hfin with hacked | ⟨f, hf, hf₀, hf₁⟩
      · exact .inl hacked
      · exact .inr ⟨f, List.mem_append_right _ hf, hf₀, hf₁.trans_le hs.le_max⟩
    · exact .inr ⟨f, List.mem_append_left _ hf, hf₀, hf₁⟩
  · exact fun hdone => h.done (hstate ▸ hdone)

/-- The numbers from which a round sends. -/
structure OutRound.From (r : OutRound) (v : SendView) (n : BitVec 32) : Prop where
  le : -v.sentFin.toNat ≤ (n - v.una).toInt
  le_max : (n - v.una).toInt ≤ (v.max - v.una).toInt
  len : r.len = 0 ∨ (n - v.una).toInt + r.len.toNat ≤ v.snd.bytes.length
  syn : r.flags.thSyn = true → v.state.Opens ∧ n = v.una
  fin : r.flags.thFin = true → ¬ v.state.Opens

/-- The later one of two numbers that are less than half of all numbers apart. -/
theorem toInt_later {a b c : BitVec 32} {x y : ℤ} (hx : (a - c).toInt = x) (hy : (b - c).toInt = y)
    (hlo : -2 ^ 31 ≤ x - y) (hhi : x - y < 2 ^ 31) : ((if seqGT a b then a else b) - c).toInt = max y x := by
  have hsub := toInt_sub_sub c hx hy hlo hhi
  split_ifs with hgt
  · unfold seqGT at hgt
    omega
  · unfold seqGT at hgt
    omega

theorem toInt_of_toNat {n : ℕ} {x : BitVec 32} (h : x.toNat = n) (hn : n < 2 ^ 31) : x.toInt = n := by
  rw [BitVec.toInt_eq_toNat_cond, h, if_pos (by omega)]

namespace OutRound

variable {r : OutRound}

/-- A FIN that is sent again takes its number again. -/
def back (r : OutRound) (tp : Tcpcb) : ℤ := if r.flags.thFin ∧ tp.tfSentFin ∧ tp.sndNxt = tp.sndMax then 1 else 0

theorem toInt_pred_sub {x una : BitVec 32} {a : ℤ} (ha : (x - una).toInt = a) (hlo : -2 ^ 30 ≤ a) (hhi : a < 2 ^ 31) :
    (x - 1 - una).toInt = a - 1 := by
  have hone : (-1 : BitVec 32).toInt = -1 := by decide +kernel
  have hsub : x - 1 = x + -1 := sub_eq_add_neg _ _
  rw [hsub]
  exact toInt_add_sub_of ha hone (by omega) (by omega)

theorem seq_sub {una : BitVec 32} {a : ℤ} (ha : (tp.sndNxt - una).toInt = a) (hlo : -2 ^ 30 ≤ a) (hhi : a < 2 ^ 31) :
    (r.seq tp - una).toInt = a - r.back tp := by
  rw [seq, back]
  split_ifs
  · exact toInt_pred_sub ha hlo hhi
  · rw [ha, sub_zero]

theorem toInt_flag (b : Bool) : (if b then (1 : BitVec 32) else 0).toInt = b.toNat := by
  cases b <;> rfl

theorem back_mem (r : OutRound) (tp : Tcpcb) : 0 ≤ r.back tp ∧ r.back tp ≤ r.flags.thFin.toNat := by
  rw [back]
  split_ifs with h
  · rw [h.1]
    exact ⟨by decide, by decide⟩
  · exact ⟨by decide, Int.natCast_nonneg _⟩

theorem nxt_sub {una : BitVec 32} {a : ℤ} (ha : (tp.sndNxt - una).toInt = a) (hlo : -2 ^ 30 ≤ a)
    (hlen : r.len.toNat < 2 ^ 31) (hhi : a + r.len.toNat < 2 ^ 30 + 2 ^ 29) :
    (r.nxt tp - una).toInt = a - r.back tp + r.flags.thSyn.toNat + r.flags.thFin.toNat + r.len.toNat := by
  have hback := r.back_mem tp
  have hsyn := Bool.toNat_le r.flags.thSyn
  have hfin := Bool.toNat_le r.flags.thFin
  have hseq := seq_sub (r := r) ha hlo (by omega)
  have hseqSyn := toInt_add_sub_of hseq (toInt_flag r.flags.thSyn) (by omega) (by omega)
  have hseqFin := toInt_add_sub_of hseqSyn (toInt_flag r.flags.thFin) (by omega) (by omega)
  exact toInt_add_sub_of hseqFin (toInt_of_toNat rfl hlen) (by omega) (by omega)

theorem sent_view (r : OutRound) (so : Socket) (tp : Tcpcb) :
    Conn.view ⟨so, r.sent tp⟩ = { Conn.view ⟨so, tp⟩ with
      nxt := r.nxt tp, max := r.max tp, sentFin := tp.tfSentFin || r.flags.thFin } ∨
    Conn.view ⟨so, r.sent tp⟩ = { Conn.view ⟨so, tp⟩ with
      nxt := r.seq tp
      max := if seqGT (r.seq tp + r.len) tp.sndMax then r.seq tp + r.len else tp.sndMax } := by
  rw [sent]
  dsimp only
  by_cases hforce : ¬ tp.tForce = true ∨ tp.tTimer .persist = 0
  · rw [if_pos hforce]
    by_cases hset : tp.tTimer .rexmt = 0 ∧ r.nxt tp ≠ tp.sndUna
    · rw [if_pos hset]
      exact .inl rfl
    · rw [if_neg hset]
      exact .inl rfl
  · rw [if_neg hforce]
    exact .inr rfl

/-- The round, when its segment was sent. -/
theorem sent_sends {moved finAcked : Bool} {fins : List (BitVec 32)} (h : s.view.Inv moved finAcked fins)
    (hview : Conn.view ⟨so, tp⟩ = { s.view with nxt := tp.sndNxt }) (hfrom : r.From s.view tp.sndNxt) :
    s.view.Sends (Conn.view ⟨so, r.sent tp⟩) (if r.flags.thFin then [r.nxt tp - 1] else []) := by
  have hmax : tp.sndMax = s.view.max := congrArg SendView.max hview
  have hfin : tp.tfSentFin = s.view.sentFin := congrArg SendView.sentFin hview
  obtain ⟨hle, hlemax, hlen, hsyn, hthFin⟩ := hfrom
  have hsmall := h.small
  have hd₀ := h.max_nonneg
  have hd₁ := h.max_le
  have hmoved := Bool.toNat_le (!moved)
  have hsent := Bool.toNat_le s.view.sentFin
  have hlen' : r.len.toNat = 0 ∨ (tp.sndNxt - s.view.una).toInt + r.len.toNat ≤ s.view.snd.bytes.length :=
    hlen.imp_left (congrArg BitVec.toNat)
  have hback := r.back_mem tp
  have hseq : (r.seq tp - s.view.una).toInt = (tp.sndNxt - s.view.una).toInt - r.back tp :=
    seq_sub rfl (by omega) (by omega)
  have hnxt : (r.nxt tp - s.view.una).toInt = (tp.sndNxt - s.view.una).toInt - r.back tp + r.flags.thSyn.toNat +
      r.flags.thFin.toNat + r.len.toNat := nxt_sub rfl (by omega) (by omega) (by omega)
  have hmax' : (tp.sndMax - s.view.una).toInt = (s.view.max - s.view.una).toInt := by rw [hmax]
  have hbackFin : r.back tp = 1 ↔ r.flags.thFin = true ∧ s.view.sentFin = true ∧
      (tp.sndNxt - s.view.una).toInt = (s.view.max - s.view.una).toInt := by
    have hiff : (tp.sndNxt - s.view.una).toInt = (s.view.max - s.view.una).toInt ↔ tp.sndNxt = tp.sndMax := by
      rw [BitVec.toInt_inj, sub_left_inj, hmax]
    rw [back, hiff, hfin]
    split_ifs with hb
    · exact iff_of_true rfl hb
    · exact iff_of_false (by decide) hb
  have hopen : r.flags.thSyn = true → (tp.sndNxt - s.view.una).toInt = 0 ∧ s.view.sentFin = false := by
    intro hsyn'
    obtain ⟨hopens, hn⟩ := hsyn hsyn'
    rw [hn, sub_self]
    exact ⟨rfl, (h.opens hopens).2.2⟩
  -- the flags, as numbers
  have hsynNat : r.flags.thSyn.toNat = 1 → (tp.sndNxt - s.view.una).toInt = 0 ∧ s.view.sentFin.toNat = 0 ∧
      r.flags.thFin.toNat = 0 := by
    intro hsyn'
    obtain ⟨hzero, hno⟩ := hopen (Bool.toNat_eq_one.mp hsyn')
    have hnofin : r.flags.thFin = false := by
      refine eq_false_of_ne_true fun hf => ?_
      exact hthFin hf (hsyn (Bool.toNat_eq_one.mp hsyn')).1
    exact ⟨hzero, congrArg Bool.toNat hno, congrArg Bool.toNat hnofin⟩
  rw [← Bool.toNat_eq_one, ← Bool.toNat_eq_one] at hbackFin
  have hsynLe := Bool.toNat_le r.flags.thSyn
  have hfinLe := Bool.toNat_le r.flags.thFin
  rcases r.sent_view so tp with hw | hw
  · -- the numbers are counted on
    have hlast : (r.max tp - s.view.una).toInt = Max.max (s.view.max - s.view.una).toInt (r.nxt tp - s.view.una).toInt :=
      toInt_later rfl hmax' (by omega) (by omega)
    have hor : (s.view.sentFin || r.flags.thFin).toNat = Max.max s.view.sentFin.toNat r.flags.thFin.toNat := by
      cases s.view.sentFin <;> cases r.flags.thFin <;> rfl
    rw [hw, hview, hfin]
    refine ⟨rfl, fun hf => by rw [hf]; rfl, ?_, ?_, ?_, ?_, ?_, ?_⟩
    · intro hopens
      have hnofin : r.flags.thFin = false := eq_false_of_ne_true fun hf => hthFin hf hopens
      rw [hnofin, Bool.or_false]
    · change _ ≤ (r.max tp - s.view.una).toInt
      rw [hlast]
      exact le_max_left _ _
    · change (r.max tp - s.view.una).toInt ≤ _ + ((s.view.sentFin || r.flags.thFin).toNat : ℤ) - _ ∨
        (r.max tp - s.view.una).toInt ≤ _ + ((s.view.sentFin || r.flags.thFin).toNat : ℤ) ∨
        (_ ∧ (r.max tp - s.view.una).toInt ≤ _)
      by_cases hsyn' : r.flags.thSyn = true
      · have hone := Bool.toNat_eq_one.mpr hsyn'
        exact .inr (.inr ⟨(hsyn hsyn').1, by omega⟩)
      · have hzero : r.flags.thSyn.toNat = 0 := congrArg Bool.toNat (eq_false_of_ne_true hsyn')
        rw [← or_assoc]
        exact .inl (by omega)
    · change -((s.view.sentFin || r.flags.thFin).toNat : ℤ) ≤ (r.nxt tp - s.view.una).toInt
      omega
    · change (r.nxt tp - s.view.una).toInt ≤ (r.max tp - s.view.una).toInt
      rw [hlast]
      exact le_max_right _ _
    · change (s.view.sentFin || r.flags.thFin) = true → _
      intro hf
      by_cases hold : s.view.sentFin = true
      · exact .inl hold
      · have hnew : r.flags.thFin = true := (Bool.or_eq_true_iff.mp hf).resolve_left hold
        have hone := Bool.toNat_eq_one.mpr hnew
        have hzero : s.view.sentFin.toNat = 0 := congrArg Bool.toNat (eq_false_of_ne_true hold)
        have hnumber := toInt_pred_sub hnxt (by omega) (by omega)
        rw [if_pos hnew]
        refine .inr ⟨_, List.mem_singleton_self _, ?_, ?_⟩
        · omega
        · change (r.nxt tp - 1 - s.view.una).toInt < (r.max tp - s.view.una).toInt
          omega
  · -- the window is probed
    clear hnxt hsynNat hopen hsyn hsynLe
    have hdata : (r.seq tp + r.len - s.view.una).toInt = (r.seq tp - s.view.una).toInt + r.len.toNat :=
      toInt_add_sub_of rfl (toInt_of_toNat rfl (by omega)) (by omega) (by omega)
    have hlast := toInt_later hdata hmax' (by omega) (by omega)
    rw [hw, hview]
    generalize (if seqGT (r.seq tp + r.len) tp.sndMax then r.seq tp + r.len else tp.sndMax) = last at hlast ⊢
    refine ⟨rfl, id, fun _ => rfl, ?_, ?_, ?_, ?_, .inl⟩
    · change _ ≤ (last - s.view.una).toInt
      rw [hlast]
      exact le_max_left _ _
    · change (last - s.view.una).toInt ≤ _ + (s.view.sentFin.toNat : ℤ) - _ ∨
        (last - s.view.una).toInt ≤ _ + (s.view.sentFin.toNat : ℤ) ∨ _
      rw [← or_assoc]
      exact .inl (by omega)
    · change -(s.view.sentFin.toNat : ℤ) ≤ (r.seq tp - s.view.una).toInt
      omega
    · change (r.seq tp - s.view.una).toInt ≤ (last - s.view.una).toInt
      omega

end OutRound

namespace Conn

/-- The flags of a round, and what it leaves of the connection, before it looks at the window. -/
theorem force_view (s : Conn) : Conn.view ⟨s.so, s.force.1⟩ = s.view ∧
    (s.force.2.2.thSyn = true → s.tp.tState.Opens) ∧ (s.force.2.2.thFin = true → ¬ s.tp.tState.Opens) := by
  have hsyn : (tcpOutflags s.tp.tState).thSyn = true → s.tp.tState.Opens := by
    cases s.tp.tState <;> decide
  have hfin : (tcpOutflags s.tp.tState).thFin = true → ¬ s.tp.tState.Opens := by
    cases s.tp.tState <;> decide
  rw [force]
  dsimp only
  split_ifs
  · exact ⟨rfl, hsyn, fun h => absurd h (by decide)⟩
  · exact ⟨rfl, hsyn, hfin⟩
  · exact ⟨rfl, hsyn, hfin⟩
  · exact ⟨rfl, hsyn, hfin⟩

/-- How much there is to send in the window, and the connection behind a closed one. -/
def cut (s : Conn) : Tcpcb × BitVec 32 :=
  let len := minWord s.so.soSnd.sbCc s.force.2.1 - s.off
  if len.toInt < 0 then
    (if s.force.2.1 = 0 then
      { s.force.1 with tTimer := Function.update s.force.1.tTimer .rexmt 0, sndNxt := s.force.1.sndUna } else s.force.1, 0)
  else (s.force.1, len)

theorem round_eq (s : Conn) : s.round.tp = s.cut.1 ∧
    s.round.len = (if (s.cut.1.tMaxseg.toNat : ℤ) < s.cut.2.toInt then s.cut.1.maxseg else s.cut.2) ∧
    (s.round.flags = s.force.2.2 ∨ s.round.flags = { s.force.2.2 with thFin := false }) := by
  rw [round, cut]
  generalize s.force = f
  obtain ⟨tp, win, flags⟩ := f
  dsimp only
  generalize minWord s.so.soSnd.sbCc win - s.off = len
  have hflags : ∀ (c : Prop) [Decidable c], (if c then { flags with thFin := false } else flags) = flags ∨
      (if c then { flags with thFin := false } else flags) = { flags with thFin := false } := by
    intro c hc
    split_ifs
    · exact .inr rfl
    · exact .inl rfl
  by_cases hneg : len.toInt < 0
  · rw [if_pos hneg]
    dsimp only
    generalize (if win = 0 then { tp with tTimer := Function.update tp.tTimer .rexmt 0, sndNxt := tp.sndUna } else tp) = tp'
    exact ⟨rfl, by simp only [decide_eq_true_eq], hflags _⟩
  · rw [if_neg hneg]
    dsimp only
    exact ⟨rfl, by simp only [decide_eq_true_eq], hflags _⟩

/-- What there is to send is in the send buffer. -/
theorem cut_view {moved finAcked : Bool} {fins : List (BitVec 32)} (h : s.view.Inv moved finAcked fins) :
    Conn.view ⟨s.so, s.cut.1⟩ = { s.view with nxt := s.cut.1.sndNxt } ∧
      ((s.cut.2 = 0 ∧ (s.cut.1.sndNxt = s.view.nxt ∨ s.cut.1.sndNxt = s.view.una)) ∨
        (s.cut.1.sndNxt = s.view.nxt ∧ 0 ≤ s.cut.2.toInt ∧
          (s.view.nxt - s.view.una).toInt + s.cut.2.toInt ≤ s.view.snd.bytes.length)) := by
  have hsmall := h.small
  have hd₀ := h.max_nonneg
  have hd₁ := h.max_le
  have ha₀ := h.le_nxt
  have ha₁ := h.nxt_le
  have hmoved := Bool.toNat_le (!moved)
  have hsent := Bool.toNat_le s.view.sentFin
  have hcc : s.so.soSnd.sbCc.toNat = s.view.snd.bytes.length := h.snd.toNat_sbCc hsmall
  obtain ⟨hview, -, -⟩ := s.force_view
  have hnxt : s.force.1.sndNxt = s.view.nxt := congrArg SendView.nxt hview
  have huna : s.force.1.sndUna = s.view.una := congrArg SendView.una hview
  have hle : (minWord s.so.soSnd.sbCc s.force.2.1).toNat ≤ s.so.soSnd.sbCc.toNat := by
    rw [Tcpcb.toNat_minWord]
    exact min_le_left _ _
  have hlen : (minWord s.so.soSnd.sbCc s.force.2.1 - s.off).toInt =
      (minWord s.so.soSnd.sbCc s.force.2.1).toNat - (s.view.nxt - s.view.una).toInt := by
    have hnat := toInt_of_toNat (x := minWord s.so.soSnd.sbCc s.force.2.1) rfl (by omega)
    have hoff : s.off.toInt = (s.view.nxt - s.view.una).toInt := rfl
    rw [BitVec.toInt_sub, hnat, hoff]
    exact Int.bmod_eq_of_le (by omega) (by omega)
  rw [cut]
  dsimp only
  generalize minWord s.so.soSnd.sbCc s.force.2.1 - s.off = len at hlen ⊢
  by_cases hneg : len.toInt < 0
  · rw [if_pos hneg]
    by_cases hwin : s.force.2.1 = 0
    · rw [if_pos hwin]
      refine ⟨?_, .inl ⟨rfl, .inr huna⟩⟩
      rw [← hview]
      rfl
    · rw [if_neg hwin]
      refine ⟨?_, .inl ⟨rfl, .inl hnxt⟩⟩
      rw [← hview]
      rfl
  · rw [if_neg hneg]
    have hlen₀ : 0 ≤ len.toInt := by omega
    have hlen₁ : (s.view.nxt - s.view.una).toInt + len.toInt ≤ s.view.snd.bytes.length := by omega
    refine ⟨?_, .inr ⟨hnxt, hlen₀, hlen₁⟩⟩
    rw [← hview]
    rfl

/-- A round sends from the numbers that are acknowledged up to those that were sent. -/
theorem round_view {moved finAcked : Bool} {fins : List (BitVec 32)} (h : s.view.Inv moved finAcked fins) :
    Conn.view ⟨s.so, s.round.tp⟩ = { s.view with nxt := s.round.tp.sndNxt } ∧
      s.round.From s.view (if s.round.flags.thSyn then s.view.iss else s.round.tp.sndNxt) := by
  have hsmall := h.small
  have hd₀ := h.max_nonneg
  have ha₀ := h.le_nxt
  have ha₁ := h.nxt_le
  obtain ⟨hview, hcut⟩ := cut_view h
  obtain ⟨-, hsyn, hfin⟩ := s.force_view
  obtain ⟨htp, hlen, hflags⟩ := s.round_eq
  have hsyn : s.round.flags.thSyn = true → s.view.state.Opens := by
    rcases hflags with hflags | hflags
    · rw [hflags]
      exact hsyn
    · rw [hflags]
      exact hsyn
  have hfin : s.round.flags.thFin = true → ¬ s.view.state.Opens := by
    rcases hflags with hflags | hflags
    · rw [hflags]
      exact hfin
    · rw [hflags]
      exact fun hno => absurd hno Bool.false_ne_true
  rw [htp]
  refine ⟨hview, ?_⟩
  generalize s.cut.1 = tp at hview hcut hlen ⊢
  generalize s.cut.2 = len at hcut hlen
  -- a segment is not longer than what there is to send
  have hround : s.round.len = 0 ∧ (tp.sndNxt = s.view.nxt ∨ tp.sndNxt = s.view.una) ∨
      (tp.sndNxt = s.view.nxt ∧
        (s.view.nxt - s.view.una).toInt + s.round.len.toNat ≤ s.view.snd.bytes.length) := by
    have hmaxseg : tp.maxseg.toNat = tp.tMaxseg.toNat := by
      rw [Tcpcb.maxseg, BitVec.toNat_setWidth, Nat.mod_eq_of_lt (by have := tp.tMaxseg.isLt; omega)]
    rcases hcut with ⟨hzero, hfrom⟩ | ⟨hfrom, hpos, hdata⟩
    · refine .inl ⟨?_, hfrom⟩
      rw [hlen, hzero, if_neg]
      intro hlt
      exact absurd hlt (by have hz : (0 : BitVec 32).toInt = 0 := by decide
                           rw [hz]
                           omega)
    · refine .inr ⟨hfrom, ?_⟩
      rw [hlen]
      split_ifs with hseg
      · rw [hmaxseg]
        omega
      · have hnat : (len.toNat : ℤ) = len.toInt := by
          rw [BitVec.toInt_eq_toNat_cond] at hpos ⊢
          split_ifs at hpos ⊢
          · rfl
          · have := len.isLt
            omega
        omega
  have hzero : (s.view.una - s.view.una).toInt = 0 := by
    rw [sub_self]
    rfl
  by_cases hflag : s.round.flags.thSyn = true
  · have hopens := hsyn hflag
    obtain ⟨hiss, -, hnofin⟩ := h.opens hopens
    have hnofin : s.view.sentFin.toNat = 0 := congrArg Bool.toNat hnofin
    rw [if_pos hflag, ← hiss]
    refine ⟨by omega, by omega, ?_, fun _ => ⟨hopens, rfl⟩, hfin⟩
    rcases hround with ⟨hlen, -⟩ | ⟨-, hlen⟩
    · exact .inl hlen
    · exact .inr (by omega)
  · rw [if_neg hflag]
    rcases hround with ⟨hlen, hfrom | hfrom⟩ | ⟨hfrom, hlen⟩
    · rw [hfrom]
      exact ⟨ha₀, ha₁, .inl hlen, fun hs => absurd hs hflag, hfin⟩
    · rw [hfrom]
      exact ⟨by omega, by omega, .inl hlen, fun hs => absurd hs hflag, hfin⟩
    · rw [hfrom]
      exact ⟨ha₀, ha₁, .inr hlen, fun hs => absurd hs hflag, hfin⟩

theorem sends_nxt {n : BitVec 32} {fins : List (BitVec 32)} (hle : -s.view.sentFin.toNat ≤ (n - s.view.una).toInt)
    (hmax : (n - s.view.una).toInt ≤ (s.view.max - s.view.una).toInt) : s.view.Sends { s.view with nxt := n } fins := by
  refine ⟨rfl, id, fun _ => rfl, Int.le_refl _, .inl ?_, hle, hmax, .inl⟩
  change (s.view.max - s.view.una).toInt ≤ (s.view.max - s.view.una).toInt + (s.view.sentFin.toNat : ℤ) - s.view.sentFin.toNat
  omega

/-- A round of `tcp_output`. -/
theorem output_sends {moved finAcked : Bool} {fins : List (BitVec 32)} (h : s.view.Inv moved finAcked fins)
    (caller : Caller) (i : Bool) (e : OutEnv) :
    s.view.Sends (s.output i e).1.view ((ConnRun.output s caller i).finSent (.round e)).toList := by
  obtain ⟨hview, hfrom⟩ := round_view h
  have hoptions := s.round.options_view s.so e.rt
  rw [output, ConnRun.finSent]
  dsimp only
  generalize s.round = r at hview hfrom hoptions ⊢
  have herror : ∀ (so : Socket) (tp : Tcpcb) (error : ℤ), Conn.view ⟨so, tp.outputError error⟩ = Conn.view ⟨so, tp⟩ := by
    intro so tp error
    rw [Tcpcb.outputError]
    split_ifs <;> rfl
  by_cases hsends : r.Sends s.so i
  · rw [if_pos hsends]
    generalize r.options s.so e.rt = o at hoptions ⊢
    obtain ⟨so, tp, optlen⟩ := o
    dsimp only at hoptions ⊢
    have hiss : r.tp.iss = s.view.iss := congrArg SendView.iss hview
    have hnxt : tp.sndNxt = if r.flags.thSyn then s.view.iss else r.tp.sndNxt := by
      rw [← hiss]
      exact congrArg SendView.nxt hoptions
    rw [← hnxt] at hfrom
    have hconn : Conn.view ⟨so, tp⟩ = { s.view with nxt := tp.sndNxt } := by
      rw [hoptions, hview, hnxt, hiss]
    by_cases hmbufs : r.Mbufs optlen e
    · have hsent := r.sent_sends h hconn hfrom
      have hfins : (if r.Sends s.so i ∧ r.Mbufs optlen e ∧ r.flags.thFin = true then some (r.nxt tp - 1) else none).toList =
          if r.flags.thFin then [r.nxt tp - 1] else [] := by
        by_cases hfin : r.flags.thFin = true
        · rw [if_pos ⟨hsends, hmbufs, hfin⟩, if_pos hfin]
          rfl
        · rw [if_neg fun hall => hfin hall.2.2, if_neg hfin]
          rfl
      rw [if_pos hmbufs, hfins]
      generalize (if r.flags.thFin = true then [r.nxt tp - 1] else []) = fins' at hsent
      split_ifs
      · exact hsent
      · exact (herror so (r.sent tp) e.ipOutput).symm ▸ hsent
    · rw [if_neg hmbufs]
      have herr := herror so tp (-eNOBUFS)
      dsimp only
      rw [herr, hconn]
      exact sends_nxt hfrom.le hfrom.le_max
  · rw [if_neg hsends]
    have hsyn : ¬ r.flags.thSyn = true := fun hs => hsends (.inr (.inr (.inr (.inl (.inl hs)))))
    have hnot : Conn.view ⟨s.so, r.tp.notSent s.so⟩ = Conn.view ⟨s.so, r.tp⟩ := by
      rw [Tcpcb.notSent]
      split_ifs <;> rfl
    dsimp only
    rw [if_neg hsyn] at hfrom
    rw [hnot, hview]
    exact sends_nxt hfrom.le hfrom.le_max

end Conn

/-! ## Runs in which a FIN is acknowledged when the connection says so -/

/-- What holds of a run. -/
structure FinRun.Inv (r : FinRun) : Prop where
  run : r.run.In (fun v => v.Inv r.moved r.finAcked r.fins) True
  closed : r.closed = true → r.finAcked = true

theorem SendView.Inv.kept {v w : SendView} {moved finAcked : Bool} {fins : List (BitVec 32)}
    (h : v.Inv moved finAcked fins) (hk : v.Kept w) : w.Inv moved finAcked fins := by
  have huna : w.una = v.una := by rw [hk.eq]
  have hsnd : w.snd = v.snd := by rw [hk.eq]
  have hnxt : w.nxt = v.nxt := by rw [hk.eq]
  have hmax : w.max = v.max := by rw [hk.eq]
  have hiss : w.iss = v.iss := by rw [hk.eq]
  have hfin : w.sentFin = v.sentFin := by rw [hk.eq]
  refine ⟨?_, ?_, ?_, ?_, ?_, ?_, ?_, ?_, ?_⟩
  · exact hsnd ▸ h.snd
  · exact hsnd ▸ h.small
  · rw [huna, hiss, hfin]
    exact fun hopens => h.opens (hk.moves.opens hopens)
  · rw [hmax, huna]
    exact h.max_nonneg
  · rw [hmax, huna, hsnd, hfin]
    exact h.max_le
  · rw [hfin, hnxt, huna]
    exact h.le_nxt
  · rw [hnxt, hmax, huna]
    exact h.nxt_le
  · rw [hfin, hmax, huna]
    exact h.fin
  · exact fun hdone => h.done (hk.moves.done hdone)

/-- `snd_nxt` goes back. -/
theorem SendView.Inv.back {v : SendView} {moved finAcked : Bool} {fins : List (BitVec 32)}
    (h : v.Inv moved finAcked fins) : ({ v with nxt := v.una } : SendView).Inv moved finAcked fins := by
  have hzero : (v.una - v.una).toInt = 0 := by
    rw [sub_self]
    rfl
  refine ⟨h.snd, h.small, h.opens, h.max_nonneg, h.max_le, ?_, ?_, h.fin, h.done⟩
  · change -(v.sentFin.toNat : ℤ) ≤ (v.una - v.una).toInt
    omega
  · change (v.una - v.una).toInt ≤ (v.max - v.una).toInt
    exact hzero.symm ▸ h.max_nonneg

theorem SendView.Inv.appended {v w : SendView} {m : List Mbuf} {moved finAcked : Bool} {fins : List (BitVec 32)}
    (h : v.Inv moved finAcked fins) (ha : v.Appended w m) (hsmall : v.snd.bytes.length + chainLen m < 2 ^ 30) :
    w.Inv moved finAcked fins := by
  obtain ⟨hsnd, hbytes⟩ := ha.snd h.snd
  have hlen : w.snd.bytes.length = v.snd.bytes.length + chainLen m := by
    rw [hbytes, List.length_append, length_chainBytes]
  have hw : ∀ sb : SockBuf, SbInv sb → sb.bytes.length = v.snd.bytes.length + chainLen m →
      ({ v with snd := sb } : SendView).Inv moved finAcked fins := by
    intro sb hsb hlen
    refine ⟨hsb, hlen ▸ hsmall, h.opens, h.max_nonneg, ?_, h.le_nxt, h.nxt_le, h.fin, h.done⟩
    have hmax := h.max_le
    change (v.max - v.una).toInt ≤ sb.bytes.length + ((!moved).toNat : ℤ) + v.sentFin.toNat
    omega
  rw [ha.eq]
  exact hw _ hsnd hlen

/-- The numbers that are covered, as signed distances. -/
theorem covers_of_lt {una ack f : BitVec 32} (h₀ : 0 ≤ (f - una).toInt) (h₁ : (f - una).toInt < (ack - una).toInt) :
    Covers una ack f := by
  rw [Covers, BitVec.lt_def]
  rw [BitVec.toInt_eq_toNat_cond] at h₀ h₁
  rw [BitVec.toInt_eq_toNat_cond] at h₁
  have hf := (f - una).isLt
  have hack := (ack - una).isLt
  split_ifs at h₀ h₁ <;> omega

section

variable {v w : SendView} {ack : BitVec 32} {moved finAcked : Bool} {fins : List (BitVec 32)}

/-- A number that is new, and was sent. -/
theorem SendView.Inv.new (h : v.Inv moved finAcked fins) (hold : 0 < (ack - v.una).toInt) (hmax : ¬ seqGT ack v.max) :
    (ack - v.una).toInt ≤ (v.max - v.una).toInt := by
  have hsub := toInt_sub_sub (a := ack) (b := v.max) v.una rfl rfl
  have hd := h.max_nonneg
  have hlt := BitVec.toInt_lt (x := ack - v.una)
  have hlt' := BitVec.toInt_lt (x := v.max - v.una)
  have hsub := hsub (by omega) (by omega)
  unfold seqGT at hmax
  omega

/-- If everything that was sent is acknowledged, then our FIN is, if it was sent. -/
theorem SendView.Inv.covered (h : v.Inv moved finAcked fins) (hfin : v.sentFin = true)
    (hall : (v.max - v.una).toInt ≤ (ack - v.una).toInt) : (finAcked || fins.any fun f => Covers v.una ack f) = true := by
  rw [Bool.or_eq_true_iff]
  rcases h.fin hfin with hacked | ⟨f, hf, hf₀, hf₁⟩
  · exact .inl hacked
  · exact .inr (List.any_eq_true.mpr ⟨f, hf, decide_eq_true (covers_of_lt hf₀ (by omega))⟩)

/-- What lies behind the send buffer is our FIN, if the SYN was acknowledged before, or is acknowledged with it. -/
theorem SendView.Inv.waits (h : v.Inv moved finAcked fins) (hold : 0 < (ack - v.una).toInt) (hmax : ¬ seqGT ack v.max)
    (hfin : v.snd.sbCc < ack - v.una) (hsyn : moved = false → ack - v.una ≠ v.snd.sbCc + 1) :
    (finAcked || fins.any fun f => Covers v.una ack f) = true := by
  have hnew := h.new hold hmax
  have hcc := h.snd.toNat_sbCc h.small
  have hsmall := h.small
  have hle := h.max_le
  have hsent := Bool.toNat_le v.sentFin
  have hnat : ((ack - v.una).toNat : ℤ) = (ack - v.una).toInt := by
    rw [BitVec.toInt_eq_toNat_cond] at hold ⊢
    have hlt := (ack - v.una).isLt
    split_ifs at hold ⊢ <;> omega
  have hbehind : v.snd.sbCc.toNat < (ack - v.una).toNat := BitVec.lt_def.mp hfin
  have hlast : v.sentFin.toNat = 1 ∧ (v.max - v.una).toInt ≤ (ack - v.una).toInt := by
    cases moved with
    | true =>
        rw [Bool.not_true, Bool.toNat_false] at hle
        omega
    | false =>
        rw [Bool.not_false, Bool.toNat_true] at hle
        have hne : (ack - v.una).toNat ≠ v.snd.bytes.length + 1 := by
          intro heq
          refine hsyn rfl (BitVec.eq_of_toNat_eq ?_)
          have hone : (1 : BitVec 32).toNat = 1 := rfl
          rw [heq, BitVec.toNat_add, hcc, hone, Nat.mod_eq_of_lt (by omega)]
        omega
  exact h.covered (Bool.toNat_eq_one.mp hlast.1) hlast.2

/-- `snd_una` goes on. -/
theorem SendView.Inv.advanced (h : v.Inv moved finAcked fins) (hold : 0 < (ack - v.una).toInt) (hmax : ¬ seqGT ack v.max)
    (ha : v.Advanced w ack) (hsnd : SbInv w.snd) (hsmall : w.snd.bytes.length < 2 ^ 30)
    (hle : (v.max - v.una).toInt - (ack - v.una).toInt ≤ w.snd.bytes.length + (v.sentFin.toNat : ℤ))
    (hdone : w.state.FinDone → (finAcked || fins.any fun f => Covers v.una ack f) = true) :
    w.Inv true (finAcked || fins.any fun f => Covers v.una ack f) fins := by
  have hnew := h.new hold hmax
  have hd := h.max_nonneg
  have ha₀ := h.le_nxt
  have ha₁ := h.nxt_le
  have hsent := Bool.toNat_le v.sentFin
  have hlt := BitVec.toInt_lt (x := v.max - v.una)
  have hzero : (ack - ack).toInt = 0 := by
    rw [sub_self]
    rfl
  have hmax' : (v.max - ack).toInt = (v.max - v.una).toInt - (ack - v.una).toInt :=
    toInt_sub_sub v.una rfl rfl (by omega) (by omega)
  have hnxt : 0 ≤ (w.nxt - ack).toInt ∧ (w.nxt - ack).toInt ≤ (v.max - ack).toInt := by
    have hsub : (v.nxt - ack).toInt = (v.nxt - v.una).toInt - (ack - v.una).toInt :=
      toInt_sub_sub v.una rfl rfl (by omega) (by omega)
    rcases ha.nxt with ⟨heq, hall⟩ | heq
    · rw [heq, hall]
      omega
    · rw [heq]
      split_ifs with hback
      · omega
      · unfold seqLT at hback
        omega
  refine ⟨hsnd, hsmall, fun hopens => absurd hopens ha.opens, ?_, ?_, ?_, ?_, ?_, hdone⟩
  · rw [ha.max, ha.una]
    omega
  · rw [ha.max, ha.una, ha.sentFin, Bool.not_true, Bool.toNat_false]
    omega
  · rw [ha.sentFin, ha.una]
    omega
  · rw [ha.max, ha.una]
    exact hnxt.2
  · rw [ha.sentFin, ha.una, ha.max]
    intro hfin
    rcases h.fin hfin with hacked | ⟨f, hf, hf₀, hf₁⟩
    · exact .inl (by rw [hacked, Bool.true_or])
    · by_cases hcovers : (f - v.una).toInt < (ack - v.una).toInt
      · refine .inl (Bool.or_eq_true_iff.mpr (.inr ?_))
        exact List.any_eq_true.mpr ⟨f, hf, decide_eq_true (covers_of_lt hf₀ hcovers)⟩
      · have hsub : (f - ack).toInt = (f - v.una).toInt - (ack - v.una).toInt :=
          toInt_sub_sub v.una rfl rfl (by omega) (by omega)
        exact .inr ⟨f, hf, by omega, by omega⟩

/-- An acknowledgement. -/
theorem SendView.Inv.acked (h : v.Inv moved finAcked fins) (hold : 0 < (ack - v.una).toInt) (hmax : ¬ seqGT ack v.max)
    (ha : v.Acked w ack) (hok : moved = false → v.snd.sbCc < ack - v.una ∧ (v.state.FinWaits → ack - v.una ≠ v.snd.sbCc + 1)) :
    w.Inv true (finAcked || fins.any fun f => Covers v.una ack f) fins := by
  obtain ⟨hsnd, hbytes⟩ := ha.snd h.snd h.small
  have hsmall := h.small
  have hlen : w.snd.bytes.length = v.snd.bytes.length - (ack - v.una).toNat := by
    rw [hbytes, List.length_drop]
  have hcc := h.snd.toNat_sbCc hsmall
  have hle := h.max_le
  have hnew := h.new hold hmax
  have hnat : ((ack - v.una).toNat : ℤ) = (ack - v.una).toInt := by
    rw [BitVec.toInt_eq_toNat_cond] at hold ⊢
    have hlt := (ack - v.una).isLt
    split_ifs at hold ⊢ <;> omega
  refine h.advanced hold hmax ha.toAdvanced hsnd (by omega) ?_ fun hdone => ?_
  · cases moved with
    | true =>
        rw [Bool.not_true, Bool.toNat_false] at hle
        omega
    | false =>
        rw [Bool.not_false, Bool.toNat_true] at hle
        have hbehind : v.snd.sbCc.toNat < (ack - v.una).toNat := BitVec.lt_def.mp (hok rfl).1
        omega
  · rcases ha.done hdone with hdone | ⟨hwaits, hfin⟩
    · rw [h.done hdone, Bool.true_or]
    · exact h.waits hold hmax hfin fun hmoved => (hok hmoved).2 hwaits

/-- The SYN is acknowledged by the SYN of the peer. -/
theorem SendView.Inv.synAcked (h : v.Inv moved finAcked fins) (ha : v.SynAcked w ack) :
    w.Inv true (finAcked || fins.any fun f => Covers v.una ack f) fins := by
  obtain ⟨hiss, hmoved, hfin⟩ := h.opens (.inl ha.synSent)
  obtain ⟨hold, hmax⟩ := ha.new
  rw [← hiss] at hold
  have hold : 0 < (ack - v.una).toInt := by
    unfold seqLEQ at hold
    omega
  have hle := h.max_le
  refine h.advanced hold hmax ha.toAdvanced (ha.snd ▸ h.snd) (ha.snd ▸ h.small) ?_ fun hdone => absurd hdone ha.done
  rw [ha.snd]
  rw [hmoved, Bool.not_false, Bool.toNat_true] at hle
  omega

end

/-- Where a round has sent, it can also go back to a number that was there before. -/
theorem SendView.Sends.nxt {v w : SendView} {n : BitVec 32} {moved finAcked : Bool} {fins fins' : List (BitVec 32)}
    (h : ({ v with nxt := n } : SendView).Inv moved finAcked fins) (hs : v.Sends w fins') :
    ({ w with nxt := n } : SendView).Inv moved finAcked (fins' ++ fins) := by
  have hle : -(v.sentFin.toNat : ℤ) ≤ (n - v.una).toInt := h.le_nxt
  have hmax : (n - v.una).toInt ≤ (v.max - v.una).toInt := h.nxt_le
  have hfin : v.sentFin.toNat ≤ w.sentFin.toNat := by
    cases hv : v.sentFin with
    | false => exact Nat.zero_le _
    | true => rw [hs.sentFin hv]
  refine h.sends ⟨?_, hs.sentFin, hs.opens, hs.le_max, hs.max_le, ?_, ?_, hs.fin⟩
  · rw [hs.eq]
  · change -(w.sentFin.toNat : ℤ) ≤ (n - v.una).toInt
    omega
  · change (n - v.una).toInt ≤ (w.max - v.una).toInt
    exact hmax.trans hs.le_max

/-- Behind `tcp_output`. -/
theorem Caller.ret_inv {moved finAcked : Bool} {fins : List (BitVec 32)} {caller : Caller}
    (h : s.view.Inv moved finAcked fins) (hcaller : caller.In (fun v => v.Inv moved finAcked fins) s.view) :
    (caller.ret s).view.Inv moved finAcked fins := by
  cases caller with
  | plain => exact h
  | forced => exact h
  | fastRexmt onxt =>
      rw [ret]
      split_ifs
      · exact hcaller
      · exact h

namespace FinRun.Inv

variable {r : FinRun} {c : ConnCall} {t : ConnRun}

theorem round {caller : Caller} {i : Bool} {e : OutEnv} {moved finAcked : Bool} {fins : List (BitVec 32)}
    (h : (ConnRun.output s caller i).In (fun v => v.Inv moved finAcked fins) True)
    (ht : (ConnRun.output s caller i).step (.round e) = some t) :
    t.In (fun v => v.Inv moved finAcked (((ConnRun.output s caller i).finSent (.round e)).toList ++ fins)) True := by
  have hsends := Conn.output_sends h.1 caller i e
  have hnext := h.1.sends hsends
  have hcaller : caller.In (fun v => v.Inv moved finAcked (((ConnRun.output s caller i).finSent (.round e)).toList ++ fins))
      (s.output i e).1.view := by
    cases caller with
    | fastRexmt onxt => exact hsends.nxt h.2
    | plain | forced => trivial
  generalize ((ConnRun.output s caller i).finSent (.round e)).toList ++ fins = fins' at hnext hcaller ⊢
  rw [ConnRun.step] at ht
  generalize s.output i e = next at hnext hcaller ht
  obtain rfl := Option.some.inj ht
  split_ifs
  · exact ⟨hnext, hcaller⟩
  · exact Caller.ret_inv hnext hcaller

/-- An acknowledgement. -/
theorem ack {moved finAcked : Bool} {fins : List (BitVec 32)} (h : (ConnRun.ack x).In (fun v => v.Inv moved finAcked fins) True)
    (hok : x.CoversAll moved) (ht : x.inputAck = some t) :
    if x.AckNew then
      t.In (fun v => v.Inv true (finAcked || fins.any fun f => Covers x.tp.sndUna x.ti.tiAck f) fins) True ∧
        (t = .gone → (finAcked || fins.any fun f => Covers x.tp.sndUna x.ti.tiAck f) = true)
    else t.In (fun v => v.Inv moved finAcked fins) True ∧ t ≠ .gone := by
  obtain ⟨hinv, hopens⟩ := h
  have hview := x.inputAck_view hopens t ht
  split_ifs with hnew
  · have hold : 0 < (x.ti.tiAck - x.tp.sndUna).toInt := by
      have hnot := hnew.1
      unfold seqLEQ at hnot
      omega
    refine ⟨hview.imp ?_ fun _ => trivial, ?_⟩
    · rintro w (⟨hnot, -⟩ | ⟨-, hacked⟩)
      · exact absurd hnew hnot
      · exact hinv.acked hold hnew.2 hacked fun hmoved => hok hmoved hnew
    · rintro rfl
      obtain ⟨-, hwaits, hfin⟩ := hview
      exact hinv.waits hold hnew.2 hfin fun hmoved => (hok hmoved hnew).2 hwaits
  · refine ⟨hview.imp ?_ fun _ => trivial, ?_⟩
    · rintro w (⟨-, hkept | hback⟩ | ⟨hnot, -⟩)
      · exact hinv.kept hkept
      · exact hinv.back.kept hback
      · exact absurd hnot hnew
    · rintro rfl
      exact hnew hview.1

/-- What `tcp_input` acknowledges shows in `snd_una`. -/
theorem input {moved finAcked : Bool} {fins : List (BitVec 32)} {a : Arrival} {env : InputEnv}
    (h : s.view.Inv moved finAcked fins) (hok : ∀ x ∈ s.incoming a env, x.fastAck = true → x.CoversAll moved) {w : SendView}
    (hw : s.InputView a env w) :
    if w.una ≠ s.tp.sndUna then w.Inv true (finAcked || fins.any fun f => Covers s.tp.sndUna w.una f) fins
    else w.Inv moved finAcked fins := by
  rcases hw with hkept | ⟨ack, hsyn⟩ | ⟨x, hx, hfast, hacked⟩
  · have huna : w.una = s.tp.sndUna := by
      rw [hkept.eq]
      rfl
    rw [if_neg (not_not.mpr huna)]
    exact h.kept hkept
  · have hiss : s.view.una = s.view.iss := (h.opens (.inl hsyn.synSent)).1
    have hne : ack ≠ s.tp.sndUna := by
      rintro rfl
      refine hsyn.new.1 ?_
      rw [← hiss]
      unfold seqLEQ
      exact (congrArg BitVec.toInt (sub_self s.tp.sndUna)).le
    rw [hsyn.una, if_pos hne]
    exact h.synAcked hsyn
  · have hview : x.view = s.view := Conn.incoming_view hx
    have huna : x.tp.sndUna = s.tp.sndUna := congrArg SendView.una hview
    have hlast : x.tp.sndMax = s.view.max := congrArg SendView.max hview
    have hstate : x.tp.tState = s.tp.tState := congrArg SendView.state hview
    have hcc : x.so.soSnd.sbCc = s.so.soSnd.sbCc := congrArg (fun v => v.snd.sbCc) hview
    obtain ⟨-, -, hgt, hleq, -⟩ := of_decide_eq_true hfast
    have hnew : x.AckNew := by
      refine ⟨fun hle => ?_, fun hgt' => ?_⟩
      · unfold seqLEQ at hle
        unfold seqGT at hgt
        omega
      · unfold seqLEQ at hleq
        unfold seqGT at hgt'
        omega
    have hcovers := fun hmoved => hok x hx hfast hmoved hnew
    rw [huna, hcc, hstate] at hcovers
    rw [huna] at hgt
    have hne : x.ti.tiAck ≠ s.tp.sndUna := by
      rintro heq
      rw [heq, seqGT, sub_self] at hgt
      exact absurd hgt (by decide)
    rw [hacked.una, if_pos hne]
    exact h.acked hgt (hlast ▸ hnew.2) hacked hcovers

/-- What the part acknowledged is what `snd_una` shows. -/
theorem input_run {moved finAcked : Bool} {fins : List (BitVec 32)} (a : Arrival) (env : InputEnv)
    (h : t.In (fun w => if w.una ≠ s.tp.sndUna then w.Inv true (finAcked || fins.any fun f => Covers s.tp.sndUna w.una f) fins
      else w.Inv moved finAcked fins) True) :
    t.In (fun v => v.Inv (moved || ((ConnRun.idle s).acks (.input a env) t).isSome)
      (finAcked || ((ConnRun.idle s).acks (.input a env) t).any fun p => fins.any fun f => Covers p.1 p.2 f) fins) True := by
  have hview : ∀ u ∈ t.conn, ∀ w : SendView, w.una = u.tp.sndUna →
      (if w.una ≠ s.tp.sndUna then w.Inv true (finAcked || fins.any fun f => Covers s.tp.sndUna w.una f) fins
        else w.Inv moved finAcked fins) →
      w.Inv (moved || ((ConnRun.idle s).acks (.input a env) t).isSome)
        (finAcked || ((ConnRun.idle s).acks (.input a env) t).any fun p => fins.any fun f => Covers p.1 p.2 f) fins := by
    intro u hu w hw hinv
    rw [ConnRun.acks, Option.mem_def.mp hu]
    dsimp only
    rw [hw] at hinv
    by_cases hne : u.tp.sndUna ≠ s.tp.sndUna
    · rw [if_pos hne] at hinv ⊢
      rw [Option.isSome_some, Bool.or_true]
      exact hinv
    · rw [if_neg hne] at hinv ⊢
      rw [Option.isSome_none, Option.any_none, Bool.or_false, Bool.or_false]
      exact hinv
  cases t with
  | idle u => exact hview u rfl _ rfl h
  | ack y => exact ⟨hview _ rfl _ rfl h.1, h.2⟩
  | output u caller i =>
      refine ⟨hview u rfl _ rfl h.1, ?_⟩
      cases caller with
      | fastRexmt onxt => exact hview u rfl _ rfl h.2
      | plain | forced => trivial
  | gone => trivial

/-- A part that acknowledges nothing. -/
theorem quiet {moved finAcked closed : Bool} {fins : List (BitVec 32)} {run : ConnRun} (hacks : run.acks c t = none)
    (ht : t.In (fun v => v.Inv moved finAcked ((run.finSent c).toList ++ fins)) True)
    (hclosed : (closed || run.closes t) = true → finAcked = true) (hu : run.step c = some t) :
    ∀ t ∈ FinRun.step ⟨run, moved, fins, finAcked, closed⟩ c, t.Inv := by
  rintro u hstep
  rw [FinRun.step, hu] at hstep
  obtain rfl := Option.some.inj hstep
  refine ⟨?_, ?_⟩
  · dsimp only
    rw [hacks, Option.isSome_none, Option.any_none, Bool.or_false, Bool.or_false]
    exact ht
  · dsimp only
    rw [hacks, Option.any_none, Bool.or_false]
    exact hclosed

theorem step {t : FinRun} (h : r.Inv) (hok : r.Ok c) (ht : r.step c = some t) : t.Inv := by
  obtain ⟨u, hu, -⟩ := Option.map_eq_some_iff.mp ht
  obtain ⟨run, moved, fins, finAcked, closed⟩ := r
  obtain ⟨hrun, hclosed⟩ := h
  dsimp only at hrun hclosed hu
  have hor : (closed || false) = true → finAcked = true := fun hc => hclosed ((Bool.or_false closed).symm.trans hc)
  cases run with
  | idle s =>
      have hview := s.start_view c u hu
      have hkept : ∀ w, s.view.Kept w ∨ ({ s.view with nxt := s.view.una } : SendView).Kept w → w.Inv moved finAcked fins := by
        rintro w (hw | hw)
        · exact SendView.Inv.kept hrun hw
        · exact (SendView.Inv.back hrun).kept hw
      have happended : ∀ m w, s.view.snd.bytes.length + chainLen m < 2 ^ 30 → s.view.Kept w ∨ s.view.Appended w m →
          w.Inv moved finAcked fins := by
        rintro m w hsmall (hw | hw)
        · exact SendView.Inv.kept hrun hw
        · exact SendView.Inv.appended hrun hw hsmall
      cases c with
      | input a env =>
          have hin := hview.imp (fun w => input hrun hok) id
          have hin := input_run a env hin
          rw [FinRun.step, hu] at ht
          obtain rfl := Option.some.inj ht
          refine ⟨hin, fun hc => ?_⟩
          dsimp only
          rw [hor hc, Bool.true_or]
      | usrreq req =>
          cases req with
          | send m | sendoob m =>
              have hin : u.In (fun v => v.Inv moved finAcked fins) True := hview.imp (fun w => happended m w hok) id
              exact quiet rfl hin hor hu _ ht
          | _ =>
              have hin : u.In (fun v => v.Inv moved finAcked fins) True := hview.imp hkept id
              exact quiet rfl hin hor hu _ ht
      | _ =>
          have hin : u.In (fun v => v.Inv moved finAcked fins) True := hview.imp hkept id
          exact quiet rfl hin hor hu _ ht
  | ack x =>
      cases c with
      | ack =>
          have hack := ack hrun hok hu
          by_cases hnew : x.AckNew
          · rw [if_pos hnew] at hack
            have hacks : (ConnRun.ack x).acks .ack u = some (x.tp.sndUna, x.ti.tiAck) := if_pos hnew
            rw [FinRun.step, hu] at ht
            obtain rfl := Option.some.inj ht
            refine ⟨?_, ?_⟩
            · dsimp only
              rw [hacks, Option.isSome_some, Bool.or_true]
              exact hack.1
            · dsimp only
              rw [hacks, Bool.or_eq_true_iff]
              rintro (hc | hc)
              · rw [hclosed hc, Bool.true_or]
              · refine hack.2 ?_
                cases u with
                | gone => rfl
                | idle | ack | output => cases hc
          · rw [if_neg hnew] at hack
            have hacks : (ConnRun.ack x).acks .ack u = none := if_neg hnew
            refine quiet hacks hack.1 ?_ hu _ ht
            rw [Bool.or_eq_true_iff]
            rintro (hc | hc)
            · exact hclosed hc
            · refine absurd ?_ hack.2
              cases u with
              | gone => rfl
              | idle | ack | output => cases hc
      | _ => cases hu
  | output s caller i =>
      cases c with
      | round e => exact quiet rfl (round hrun hu) hor hu _ ht
      | _ => cases hu
  | gone => cases hu

end FinRun.Inv

theorem FinRun.Inv.start (h : s.Fresh) : (FinRun.start s).Inv := by
  have hopens : s.view.state.Opens := h.state
  have hzero : (s.tp.iss - s.tp.iss).toInt = 0 := by
    rw [sub_self]
    rfl
  have hmax : (s.view.max - s.view.una).toInt = 0 := by
    change (s.tp.sndMax - s.tp.sndUna).toInt = 0
    rw [h.max, h.una, hzero]
  have hnxt : (s.view.nxt - s.view.una).toInt = 0 := by
    change (s.tp.sndNxt - s.tp.sndUna).toInt = 0
    rw [h.nxt, h.una, hzero]
  have hfin : s.view.sentFin = false := h.fin
  have hinv : s.view.Inv false false [] := by
    refine ⟨⟨h.snd.tally, h.snd.records⟩, h.small, fun _ => ⟨h.una, rfl, hfin⟩, hmax.ge, ?_, ?_, ?_, ?_, ?_⟩
    · omega
    · omega
    · omega
    · rw [hfin]
      exact fun hf => absurd hf Bool.false_ne_true
    · rintro (hdone | hdone)
      · rw [hdone] at hopens
        exact absurd hopens (by decide)
      · rw [hdone] at hopens
        exact absurd hopens (by decide)
  have hview : Conn.view ⟨s.so, s.tp.outputIdle⟩ = s.view := s.tp.outputIdle_view s.so
  exact ⟨⟨hview.symm ▸ hinv, trivial⟩, fun hc => absurd hc Bool.false_ne_true⟩

/-- In a run whose first acknowledgement covers all that was sent from the send buffer, and our FIN if it is waited for, a
connection says that our FIN is acknowledged only if it is. -/
theorem finRight_of_reach {r : FinRun} (h₀ : s.Fresh) (h : Reach FinRun.step FinRun.Ok (FinRun.start s) r) : r.FinRight := by
  have hinv : r.Inv := h.invariant (.start h₀) fun r c t hr hok ht => hr.step hok ht
  refine ⟨fun u hu hdone => ?_, hinv.closed⟩
  have hrun := hinv.run
  generalize r.run = run at hu hrun
  cases run with
  | idle v =>
      obtain rfl := Option.some.inj hu
      exact hrun.done hdone
  | ack x =>
      obtain rfl := Option.some.inj hu
      exact hrun.1.done hdone
  | output v caller i =>
      obtain rfl := Option.some.inj hu
      exact hrun.1.done hdone
  | gone => cases hu

end

/-- A SYN has come, and a SYN is about to be sent. -/
def accepting : Conn := ⟨attachedSocket, { tcpNewtcpcb with
  tState := .synReceived, iss := 1, sndUna := 1, sndNxt := 1, sndMax := 1, sndUp := 1, sndWnd := 8192
  rcvNxt := 10001, rcvAdv := 10001, rcvUp := 10001 }⟩

/-- An acknowledgement without data. Only what lies behind `rcv_nxt` by the window gets through. -/
def plainAck (tiAck : BitVec 32) : Arrival where
  ti := ⟨0, 1809, tiAck, ⟨false, false, false, false, true, false⟩, 8192, 0⟩
  opts := fun _ => 0
  optlen := 0
  m := []

/-- The connection is closed before its SYN is acknowledged. -/
def closeCalls (tiAck : BitVec 32) : List ConnCall :=
  [.round (plainOut true), .usrreq .shutdown, .round (plainOut true),
    .input (plainAck tiAck) ⟨none, 0, 0, false, false, true⟩, .ack]

theorem accepting_fresh : accepting.Fresh where
  state := .inr rfl
  una := rfl
  nxt := rfl
  max := rfl
  fin := rfl
  snd := ⟨⟨rfl, rfl⟩, fun _ hr => absurd hr List.not_mem_nil⟩
  small := by decide

/-- SYN and FIN are acknowledged by one segment. -/
theorem finRight_of_reach_closed :
    ∃ r, runCalls FinRun.step (FinRun.start accepting) (closeCalls 3) = some r ∧ r.FinRight := by
  have hok : AllCalls FinRun.step FinRun.Ok (FinRun.start accepting) (closeCalls 3) := by decide +kernel
  obtain ⟨r, hr⟩ := Option.isSome_iff_exists.mp
    (by decide +kernel : (runCalls FinRun.step (FinRun.start accepting) (closeCalls 3)).isSome = true)
  exact ⟨r, hr, finRight_of_reach accepting_fresh (Reach.start.of_runCalls _ hok hr)⟩

/-- The SYN is acknowledged, and the connection takes it for the FIN. -/
theorem closes_without_fin : accepting.Fresh ∧
    ∃ r, runCalls FinRun.step (FinRun.start accepting) (closeCalls 2) = some r ∧ ¬ r.FinRight := by
  obtain ⟨r, hr⟩ := Option.isSome_iff_exists.mp
    (by decide +kernel : (runCalls FinRun.step (FinRun.start accepting) (closeCalls 2)).isSome = true)
  have hdone : ∀ r ∈ runCalls FinRun.step (FinRun.start accepting) (closeCalls 2),
      r.run.conn.isSome = true ∧ (∀ s ∈ r.run.conn, s.tp.tState.FinDone) ∧ r.finAcked = false := by decide +kernel
  obtain ⟨hsome, hfin, hacked⟩ := hdone r hr
  obtain ⟨s, hs⟩ := Option.isSome_iff_exists.mp hsome
  refine ⟨accepting_fresh, r, hr, fun hright => ?_⟩
  exact absurd (hacked.symm.trans (hright.done s hs (hfin s hs))) Bool.false_ne_true

end Shaunos.Net
