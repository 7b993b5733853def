import Shaunos.Net.PcbConnect

/-!
# The block that was found last

Reference: `Kernel/netinet/udp_usrreq.c` (`udp_init`, `udp_input`, `udp_detach`), `Kernel/netinet/tcp_input.c`
(`tcp_input` at `findpcb`), `Kernel/netinet/tcp_subr.c` (`tcp_close`), `Kernel/netinet/tcp_usrreq.c`
(`tcp_attach`, `PRU_CONNECT`).

Both protocols remember the block that took the last packet and look at it first. For TCP this is the head of the table
at first; for UDP it is a null pointer, because nothing sets `udp_last_inpcb` before the first datagram reads it.

* `CacheInv.call` — what calls of TCP keep;
* `cacheRight_iff` — when the block is the one that `in_pcblookup` would find.
-/

namespace Shaunos.Net

/-! ## The code -/

/-- `udp_last_inpcb` or `tcp_last_inpcb`. -/
inductive LastInpcb (ι : Type*) where
  | null
  | head
  | pcb (i : ι)
deriving DecidableEq

inductive PcbProto where
  | udp
  | tcp
deriving DecidableEq

/-- The table of a protocol, and the block that was found last. -/
structure Demux (ι : Type*) where
  table : PcbTable ι
  last : LastInpcb ι

inductive DemuxCall (ι : Type*) where
  | pcb (c : PcbCall ι)
  /-- `PRU_CONNECT` of TCP, up to `in_pcbconnect`. -/
  | tcpConnect (e : ConnectEnv) (i : ι) (nam : Nam)
  /-- `tcp_attach` without memory for a `tcpcb`. -/
  | attachFails (i : ι) (so : PcbSocket)
  /-- A packet. -/
  | input (src : InAddr) (sport : BitVec 16) (dst : InAddr) (dport : BitVec 16)

/-- The four comparisons. -/
def Inpcb.Hit (p : Inpcb) (src : InAddr) (sport : BitVec 16) (dst : InAddr) (dport : BitVec 16) : Prop :=
  p.inpLport = dport ∧ p.inpFport = sport ∧ p.inpFaddr = src ∧ p.inpLaddr = dst

instance (p : Inpcb) (src : InAddr) (sport : BitVec 16) (dst : InAddr) (dport : BitVec 16) :
    Decidable (p.Hit src sport dst dport) := inferInstanceAs (Decidable (_ ∧ _))

/-- The calls of one protocol, with what it checks before. A block in `TCPS_LISTEN` has a port and is not connected. -/
def PcbProto.May {ι : Type*} (t : PcbTable ι) : PcbProto → PcbCall ι → Prop
  | .udp, .connect _ i _ => (t.inp i).inpFaddr = iNADDR_ANY
  | .udp, .accept .. => False
  | .udp, .listen .. => False
  | .tcp, .connect .. => False
  | .tcp, .release .. => False
  | .tcp, .listen _ i _ _ => (t.inp i).inpLport ≠ 0 ∧ (t.inp i).inpFaddr = iNADDR_ANY
  | _, _ => True

instance {ι : Type*} (t : PcbTable ι) : (p : PcbProto) → (c : PcbCall ι) → Decidable (p.May t c)
  | .udp, .connect _ i _ => inferInstanceAs (Decidable ((t.inp i).inpFaddr = iNADDR_ANY))
  | .udp, .accept .. | .udp, .listen .. | .tcp, .connect .. | .tcp, .release .. => isFalse id
  | .tcp, .listen _ i _ _ => inferInstanceAs (Decidable ((t.inp i).inpLport ≠ 0 ∧ (t.inp i).inpFaddr = iNADDR_ANY))
  | .udp, .attach .. | .udp, .socket .. | .udp, .bind .. | .udp, .disconnect _ | .udp, .release ..
  | .udp, .detach _ | .tcp, .attach .. | .tcp, .socket .. | .tcp, .bind .. | .tcp, .disconnect _
  | .tcp, .accept .. | .tcp, .detach _ => isTrue trivial

/-- `PRU_CONNECT` of TCP: a block without a port is bound first. -/
def PcbTable.tcpConnect {ι : Type*} [DecidableEq ι] (t : PcbTable ι) (e : ConnectEnv) (i : ι) (nam : Nam) :
    Option (ℤ × PcbTable ι) :=
  if (t.inp i).inpLport = 0 then
    (t.inPcbbind ⟨e.inIfaddr.isSome, e.ifaIfwithaddr⟩ e.stray i none).bind fun r =>
      if r.1 ≠ 0 then some r else r.2.inPcbconnect e i nam
  else t.inPcbconnect e i nam

namespace Demux

variable {ι : Type*} [DecidableEq ι] (s : Demux ι)

/-- What the pointer leads to; the head has no addresses, and its port is the counter. -/
def lastInp : Option Inpcb :=
  match s.last with
  | .null => none
  | .head => some { Inpcb.new ⟨0, false, false⟩ with inpLport := s.table.headLport }
  | .pcb i => some (s.table.inp i)

/-- The block that `in_pcblookup` finds. -/
def lookup (src : InAddr) (sport : BitVec 16) (dst : InAddr) (dport : BitVec 16) : Option ι :=
  s.table.inPcblookup src (sport.setWidth 32) dst (dport.setWidth 32) iNPLOOKUP_WILDCARD

/-- The block for a packet, and the one that was found last from now on; `none` if the pointer is null. -/
def findpcb (src : InAddr) (sport : BitVec 16) (dst : InAddr) (dport : BitVec 16) :
    Option (Option (LastInpcb ι) × LastInpcb ι) :=
  s.lastInp.map fun p =>
    if p.Hit src sport dst dport then (some s.last, s.last)
    else
      match s.lookup src sport dst dport with
      | some i => (some (.pcb i), .pcb i)
      | none => (none, s.last)

/-- `udp_detach` and `tcp_close` forget the block that they free. -/
def lastAfter (s : Demux ι) : PcbCall ι → LastInpcb ι
  | .detach i => if s.last = .pcb i then .head else s.last
  | _ => s.last

def step (p : PcbProto) (s : Demux ι) : DemuxCall ι → Option (Demux ι)
  | .pcb c => if p.May s.table c then (s.table.step c).map fun t => ⟨t, s.lastAfter c⟩ else none
  | .tcpConnect e i nam =>
      if p = .tcp then (s.table.within i ((s.table.tcpConnect e i nam).map Prod.snd)).map fun t => ⟨t, s.last⟩
      else none
  | .attachFails i so =>
      if p = .tcp ∧ i ∉ s.table.chain then some { s with table := (s.table.inPcballoc i so).inPcbdetach i }
      else none
  | .input src sport dst dport => (s.findpcb src sport dst dport).map fun r => { s with last := r.2 }

/-- The start: `tcp_last_inpcb` is initialised, `udp_last_inpcb` is not. -/
def start (p : PcbProto) (inp : ι → Inpcb) : Demux ι :=
  ⟨.init 0 inp, match p with
    | .udp => .null
    | .tcp => .head⟩

end Demux

/-! ## What should hold -/

namespace Demux

variable {ι : Type*} [DecidableEq ι]

/-- The pointer leads to the head or to a block of the table. -/
def CacheValid (s : Demux ι) : Prop := s.last = .head ∨ ∃ i ∈ s.table.chain, s.last = .pcb i

/-- The block for a packet is the one that `in_pcblookup` finds. -/
def InputRight (s : Demux ι) : DemuxCall ι → Prop
  | .input src sport dst dport =>
      ∃ r, s.findpcb src sport dst dport = some r ∧ r.1 = (s.lookup src sport dst dport).map .pcb
  | _ => True

/-- All along a run, from the start on. -/
def CacheRight (p : PcbProto) (inp : ι → Inpcb) (cs : List (DemuxCall ι)) : Prop :=
  (start p inp).CacheValid ∧
    AllCalls (step p) (fun s c => s.InputRight c ∧ ∀ u ∈ step p s c, u.CacheValid) (start p inp) cs

/-- A packet from the wildcard address finds the pointer's block only if that is a block of the table and none in front
of it has the address and port that the packet goes to, and no foreign address. And no block is freed by
`in_pcbdisconnect` while it is remembered. -/
def InputOk (s : Demux ι) : DemuxCall ι → Prop
  | .input src sport dst dport =>
      src = iNADDR_ANY → (∃ p, s.lastInp = some p ∧ p.Hit src sport dst dport) →
        ∃ i pre post, s.last = .pcb i ∧ s.table.chain = pre ++ i :: post ∧
          ∀ j ∈ pre, ¬ (s.table.inp j).Exact src sport dst dport
  | .pcb (.disconnect i) => i ∈ s.table.chain → (s.table.inp i).inpSocket.ssNofdref = true → s.last ≠ .pcb i
  | _ => True

end Demux

/-! ## Which blocks TCP leaves behind -/

namespace PcbTable

variable {ι : Type*} [DecidableEq ι] {t u : PcbTable ι} {e : ConnectEnv} {i : ι} {nam : Nam}

/-- A block without port and address is not connected. -/
def UnboundOpen (t : PcbTable ι) : Prop := ∀ i ∈ t.chain, (t.inp i).Unbound → (t.inp i).inpFaddr = iNADDR_ANY

theorem UnboundOpen.of_one (h : t.UnboundOpen) (hchain : ∀ j ∈ u.chain, j ≠ i → j ∈ t.chain ∧ u.inp j = t.inp j)
    (hi : (u.inp i).Unbound → (u.inp i).inpFaddr = iNADDR_ANY) : u.UnboundOpen := by
  intro j hj hunbound
  by_cases hji : j = i
  · subst hji
    exact hi hunbound
  · obtain ⟨hjt, hjinp⟩ := hchain j hj hji
    rw [hjinp] at hunbound ⊢
    exact h j hjt hunbound

theorem UnboundOpen.modify (h : t.UnboundOpen) {f : Inpcb → Inpcb}
    (hf : (f (t.inp i)).Unbound → (f (t.inp i)).inpFaddr = iNADDR_ANY) : (t.modify i f).UnboundOpen :=
  h.of_one (i := i) (fun _ hj hne => ⟨hj, modify_inp_of_ne hne⟩) (by rwa [modify_inp_self])

theorem UnboundOpen.bind {ifs : Interfaces} {stray : Option InAddr} {nam : Option Nam} {c : ℤ} (h : t.UnboundOpen)
    (hi : i ∈ t.chain) (hres : t.inPcbbind ifs stray i nam = some (c, u)) : u.UnboundOpen ∧ u.chain = t.chain := by
  rcases inPcbbind_cases hres with ⟨-, rfl⟩ | ⟨-, a, lport, -, hport, hladdr, hchain, hinp, -⟩
  · exact ⟨h, rfl⟩
  · refine ⟨h.of_one (i := i) (fun j hj hne => ?_) fun _ => ?_, hchain⟩
    · rw [hinp, Function.update_of_ne hne]
      exact ⟨hchain ▸ hj, rfl⟩
    · rw [hinp, Function.update_self]
      exact h i hi ⟨hport, hladdr⟩

/-- A block with a port is connected with this port. -/
theorem UnboundOpen.connect {c : ℤ} (h : t.UnboundOpen) (hport : (t.inp i).inpLport ≠ 0)
    (hres : t.inPcbconnect e i nam = some (c, u)) : u.UnboundOpen ∧ u.chain = t.chain := by
  rcases inPcbconnect_cases hres with ⟨-, rfl⟩ | ⟨-, laddr, lport, hchain, hinp, -, hfrom⟩
  · exact ⟨h, rfl⟩
  · have hown : lport = (t.inp i).inpLport := hfrom.resolve_right fun hnew => hport hnew.1.1
    refine ⟨h.of_one (i := i) (fun j hj hne => ?_) fun hunbound => ?_, hchain⟩
    · rw [hinp, Function.update_of_ne hne]
      exact ⟨hchain ▸ hj, rfl⟩
    · rw [hinp, Function.update_self] at hunbound
      exact absurd (hown.symm.trans hunbound.1) hport

omit [DecidableEq ι] in
theorem connectOk_of_port (hport : (t.inp i).inpLport ≠ 0) : t.ConnectOk e i nam :=
  fun hunbound => absurd hunbound.1 hport

/-- What `PRU_CONNECT` of TCP keeps. -/
theorem tcpConnect_keeps {c : ℤ} (hunique : t.TuplesUnique) (hopen : t.UnboundOpen) (hi : i ∈ t.chain)
    (hres : t.tcpConnect e i nam = some (c, u)) : u.TuplesUnique ∧ u.UnboundOpen ∧ u.chain = t.chain := by
  rw [tcpConnect] at hres
  by_cases hport : (t.inp i).inpLport = 0
  · rw [if_pos hport] at hres
    obtain ⟨⟨d, v⟩, hbind, hrest⟩ := Option.bind_eq_some_iff.mp hres
    have hv := hunique.bind (hopen i hi) hbind
    obtain ⟨hvopen, hvchain⟩ := hopen.bind hi hbind
    by_cases hd : d = 0
    · rw [if_neg (not_not.mpr hd)] at hrest
      rcases inPcbbind_cases hbind with ⟨hne, -⟩ | ⟨-, a, lport, -, hp, ha, -, hinp, hfree⟩
      · exact absurd hd hne
      · have hvport : (v.inp i).inpLport ≠ 0 := by
          rw [hinp, Function.update_self]
          exact (hfree rfl (portUsed_zero hi hport (hopen i hi ⟨hp, ha⟩))).1
        obtain ⟨huopen, huchain⟩ := hvopen.connect hvport hrest
        exact ⟨hv.connect (hvchain ▸ hi) (connectOk_of_port hvport) hrest, huopen, huchain.trans hvchain⟩
    · rw [if_pos hd] at hrest
      obtain ⟨rfl, rfl⟩ := Prod.ext_iff.mp (Option.some.inj hrest)
      exact ⟨hv, hvopen, hvchain⟩
  · rw [if_neg hport] at hres
    obtain ⟨huopen, huchain⟩ := hopen.connect hport hres
    exact ⟨hunique.connect hi (connectOk_of_port hport) hres, huopen, huchain⟩

theorem callOk_of_may {c : PcbCall ι} (h : t.UnboundOpen) (hmay : PcbProto.tcp.May t c) (hstep : t.step c = some u) :
    t.CallOk c := by
  cases c with
  | bind ifs stray i nam => exact h i (within_eq_some.mp hstep).1
  | connect e i nam => exact hmay.elim
  | listen e i tiDst am =>
      refine ⟨hmay.2, connectOk_of_port ?_⟩
      split_ifs
      · rw [setLaddr_inp_self]
        exact hmay.1
      · exact hmay.1
  | attach i so => trivial
  | socket i so => trivial
  | disconnect i => trivial
  | release i laddr => trivial
  | accept i so tiDst tiDport => trivial
  | detach i => trivial

theorem UnboundOpen.disconnect (h : t.UnboundOpen) : (t.inPcbdisconnect i).UnboundOpen := by
  have hset : (t.setForeign i iNADDR_ANY 0).UnboundOpen := h.modify fun _ => rfl
  rw [inPcbdisconnect]
  split_ifs
  · exact fun j hj => hset j (List.mem_filter.mp hj).1
  · exact hset

theorem UnboundOpen.alloc (h : t.UnboundOpen) (so : PcbSocket) : (t.inPcballoc i so).UnboundOpen := by
  refine h.of_one (i := i) (fun j hj hne => ?_) fun _ => ?_
  · exact ⟨(List.mem_cons.mp hj).resolve_left hne, Function.update_of_ne hne _ _⟩
  · simp [inPcballoc, Inpcb.new]

/-- The block in `TCPS_LISTEN` keeps its port. -/
theorem UnboundOpen.listen {r : ℤ × PcbTable ι} {tiDst : InAddr} (h : t.UnboundOpen)
    (hport : (t.inp i).inpLport ≠ 0) (hres : t.listenConnect e i tiDst nam = some r) :
    r.2.UnboundOpen ∧ r.2.chain = t.chain := by
  rw [listenConnect] at hres
  generalize hv : (if (t.inp i).inpLaddr = iNADDR_ANY then t.setLaddr i tiDst else t) = v at hres
  have hset : v.UnboundOpen ∧ v.chain = t.chain ∧ (v.inp i).inpLport ≠ 0 := by
    subst hv
    split_ifs
    · refine ⟨h.modify fun hunbound => absurd hunbound.1 hport, rfl, ?_⟩
      rw [setLaddr_inp_self]
      exact hport
    · exact ⟨h, rfl, hport⟩
  obtain ⟨hvopen, hvchain, hvport⟩ := hset
  obtain ⟨⟨c, u⟩, hconnect, rfl⟩ := Option.map_eq_some_iff.mp hres
  obtain ⟨huopen, huchain⟩ := hvopen.connect hvport hconnect
  split_ifs with hc
  · rcases inPcbconnect_cases hconnect with ⟨-, rfl⟩ | ⟨rfl, -⟩
    · exact ⟨huopen.modify fun hunbound => absurd hunbound.1 hvport, hvchain⟩
    · exact absurd rfl hc
  · exact ⟨huopen, huchain.trans hvchain⟩

/-- What calls of TCP keep; only `in_pcbdetach` takes a block from the table. -/
theorem UnboundOpen.call {c : PcbCall ι} (h : t.UnboundOpen) (hmay : PcbProto.tcp.May t c)
    (hstep : t.step c = some u) :
    u.UnboundOpen ∧ ∀ j ∈ t.chain, j ∈ u.chain ∨ c = .detach j ∨
      c = .disconnect j ∧ (t.inp j).inpSocket.ssNofdref = true := by
  cases c with
  | attach i so =>
      rw [step] at hstep
      split_ifs at hstep
      obtain rfl := Option.some.inj hstep
      exact ⟨h.alloc so, fun j hj => .inl (List.mem_cons_of_mem i hj)⟩
  | socket i so =>
      obtain ⟨hi, hstep⟩ := within_eq_some.mp hstep
      obtain rfl := Option.some.inj hstep
      exact ⟨h.modify (h i hi), fun j hj => .inl hj⟩
  | bind ifs stray i nam =>
      obtain ⟨hi, hstep⟩ := within_eq_some.mp hstep
      obtain ⟨⟨c, w⟩, hbind, rfl⟩ := Option.map_eq_some_iff.mp hstep
      obtain ⟨hopen, hchain⟩ := h.bind hi hbind
      exact ⟨hopen, fun j hj => .inl (hchain ▸ hj)⟩
  | connect e i nam => exact hmay.elim
  | disconnect i =>
      obtain ⟨hi, hstep⟩ := within_eq_some.mp hstep
      obtain rfl := Option.some.inj hstep
      refine ⟨h.disconnect, fun j hj => ?_⟩
      rw [inPcbdisconnect]
      split_ifs with hfd
      · by_cases hji : j = i
        · subst hji
          refine .inr (.inr ⟨rfl, ?_⟩)
          simpa [setForeign] using hfd
        · exact .inl (List.mem_filter.mpr ⟨hj, by simpa using hji⟩)
      · exact .inl hj
  | release i laddr => exact hmay.elim
  | accept i so tiDst tiDport =>
      rw [step] at hstep
      split_ifs at hstep
      obtain rfl := Option.some.inj hstep
      refine ⟨((h.alloc so).modify fun _ => ?_).modify fun _ => ?_, fun j hj => .inl (List.mem_cons_of_mem i hj)⟩
      · simp [inPcballoc, Inpcb.new]
      · rw [modify_inp_self]
        simp [inPcballoc, Inpcb.new]
  | listen e i tiDst am =>
      obtain ⟨hi, hstep⟩ := within_eq_some.mp hstep
      obtain ⟨r, hlisten, rfl⟩ := Option.map_eq_some_iff.mp hstep
      obtain ⟨hopen, hchain⟩ := h.listen hmay.1 hlisten
      exact ⟨hopen, fun j hj => .inl (hchain ▸ hj)⟩
  | detach i =>
      obtain ⟨hi, hstep⟩ := within_eq_some.mp hstep
      obtain rfl := Option.some.inj hstep
      refine ⟨fun j hj => h j (List.mem_filter.mp hj).1, fun j hj => ?_⟩
      by_cases hji : j = i
      · exact .inr (.inl (by rw [hji]))
      · exact .inl (List.mem_filter.mpr ⟨hj, by simpa using hji⟩)

end PcbTable

/-! ## The block for a packet -/

namespace Demux

variable {ι : Type*} [DecidableEq ι] {s u : Demux ι} {src dst : InAddr} {sport dport : BitVec 16}

theorem Hit.exact {p : Inpcb} (h : p.Hit src sport dst dport) : p.Exact src sport dst dport :=
  ⟨h.1, h.2.2.2, h.2.2.1, fun _ => h.2.1⟩

omit [DecidableEq ι] in
theorem lookup_eq_some {i : ι} :
    s.lookup src sport dst dport = some i ↔ s.table.FirstBest src sport dst dport iNPLOOKUP_WILDCARD i := by
  rw [lookup, PcbTable.inPcblookup_eq_some, BitVec.setWidth_setWidth_of_le _ (by decide), BitVec.setWidth_eq,
    BitVec.setWidth_setWidth_of_le _ (by decide), BitVec.setWidth_eq]

omit [DecidableEq ι] in
/-- Without a hit the list is searched; with one, the list has to find the same block. -/
theorem inputRight_iff_of_lastInp {p : Inpcb} (hp : s.lastInp = some p) :
    s.InputRight (.input src sport dst dport) ↔
      (p.Hit src sport dst dport → ∃ i, s.last = .pcb i ∧ s.lookup src sport dst dport = some i) := by
  rw [InputRight, findpcb, hp, Option.map_some]
  by_cases hhit : p.Hit src sport dst dport
  · simp only [if_pos hhit, Option.some.injEq, exists_eq_left']
    cases hl : s.lookup src sport dst dport with
    | none => simp [hhit]
    | some i => simp [hhit]
  · simp only [if_neg hhit]
    refine iff_of_true ?_ fun h => absurd h hhit
    cases hl : s.lookup src sport dst dport with
    | none => exact ⟨_, rfl, rfl⟩
    | some i => exact ⟨_, rfl, rfl⟩

omit [DecidableEq ι] in
theorem inputRight_iff (hvalid : s.CacheValid) (hunique : s.table.TuplesUnique) :
    s.InputRight (.input src sport dst dport) ↔ s.InputOk (.input src sport dst dport) := by
  rcases hvalid with hlast | ⟨i, hi, hlast⟩
  · have hp : s.lastInp = some { Inpcb.new ⟨0, false, false⟩ with inpLport := s.table.headLport } := by
      rw [lastInp, hlast]
    rw [inputRight_iff_of_lastInp hp, InputOk]
    simp only [hp, hlast, Option.some.injEq, exists_eq_left', reduceCtorEq, false_and, exists_false, imp_false]
    constructor
    · exact fun hno _ => hno
    · exact fun hno hhit => hno hhit.2.2.1.symm hhit
  · have hp : s.lastInp = some (s.table.inp i) := by rw [lastInp, hlast]
    rw [inputRight_iff_of_lastInp hp, InputOk]
    simp only [hp, hlast, Option.some.injEq, exists_eq_left', LastInpcb.pcb.injEq]
    constructor
    · intro hright _ hhit
      obtain ⟨pre, post, hchain, hpre⟩ :=
        (PcbTable.firstBest_of_exact (Hit.exact hhit)).mp (lookup_eq_some.mp (hright hhit))
      exact ⟨i, pre, post, rfl, hchain, hpre⟩
    · intro hok hhit
      refine lookup_eq_some.mpr ((PcbTable.firstBest_of_exact (Hit.exact hhit)).mpr ?_)
      by_cases hsrc : src = iNADDR_ANY
      · obtain ⟨j, pre, post, rfl, hchain, hpre⟩ := hok hsrc hhit
        exact ⟨pre, post, hchain, hpre⟩
      · obtain ⟨pre, post, hchain, hnot⟩ := List.eq_append_cons_of_mem hi
        refine ⟨pre, post, hchain, fun j hj hexact => ?_⟩
        have hjt : j ∈ s.table.chain := by
          rw [hchain]
          exact List.mem_append_left _ hj
        have hfaddr : (s.table.inp i).inpFaddr ≠ iNADDR_ANY := hhit.2.2.1 ▸ hsrc
        refine hunique i hi j hjt (fun heq => hnot (heq ▸ hj)) hfaddr ⟨?_, ?_, ?_, ?_⟩
        · exact hhit.2.2.2.trans hexact.2.1.symm
        · exact hhit.1.trans hexact.1.symm
        · exact hhit.2.2.1.trans hexact.2.2.1.symm
        · exact hhit.2.1.trans (hexact.2.2.2 hsrc).symm

/-! ## All along a run -/

/-- What holds of the TCP table between calls. -/
structure CacheInv (s : Demux ι) : Prop where
  valid : s.CacheValid
  unique : s.table.TuplesUnique
  unbound : s.table.UnboundOpen

omit [DecidableEq ι] in
/-- A packet leaves the pointer as it was, or at a block of the table. -/
theorem findpcb_last {r : Option (LastInpcb ι) × LastInpcb ι} (h : s.findpcb src sport dst dport = some r) :
    r.2 = s.last ∨ ∃ i ∈ s.table.chain, r.2 = .pcb i := by
  obtain ⟨p, -, hr⟩ := Option.map_eq_some_iff.mp h
  by_cases hhit : p.Hit src sport dst dport
  · rw [if_pos hhit] at hr
    exact .inl (hr ▸ rfl)
  · rw [if_neg hhit] at hr
    cases hl : s.lookup src sport dst dport with
    | none =>
        rw [hl] at hr
        exact .inl (hr ▸ rfl)
    | some i =>
        rw [hl] at hr
        exact .inr ⟨i, (lookup_eq_some.mp hl).mem, hr ▸ rfl⟩

theorem lastAfter_valid {t : PcbTable ι} {c : PcbCall ι} {j : ι} (hlast : s.last = .pcb j) (hj : j ∈ t.chain) :
    CacheValid ⟨t, s.lastAfter c⟩ := by
  have hsame : s.lastAfter c = .head ∨ s.lastAfter c = s.last := by
    cases c with
    | detach i =>
        rw [lastAfter]
        split_ifs
        · exact .inl rfl
        · exact .inr rfl
    | _ => exact .inr rfl
  rcases hsame with hhead | hkept
  · exact .inl hhead
  · exact .inr ⟨j, hj, hkept.trans hlast⟩

theorem CacheInv.call {c : DemuxCall ι} (h : s.CacheInv) (hok : s.InputOk c) (hstep : step .tcp s c = some u) :
    u.CacheInv := by
  cases c with
  | pcb c =>
      rw [step] at hstep
      split_ifs at hstep with hmay
      obtain ⟨t, ht, rfl⟩ := Option.map_eq_some_iff.mp hstep
      obtain ⟨hopen, hchain⟩ := h.unbound.call hmay ht
      refine ⟨?_, h.unique.call (PcbTable.callOk_of_may h.unbound hmay ht) ht, hopen⟩
      rcases h.valid with hlast | ⟨j, hj, hlast⟩
      · left
        cases c <;> simp [lastAfter, hlast]
      · rcases hchain j hj with hju | rfl | ⟨rfl, hfd⟩
        · exact lastAfter_valid hlast hju
        · exact .inl (if_pos hlast)
        · exact absurd hlast (hok hj hfd)
  | tcpConnect e i nam =>
      rw [step, if_pos rfl] at hstep
      obtain ⟨t, ht, rfl⟩ := Option.map_eq_some_iff.mp hstep
      obtain ⟨hi, ht⟩ := PcbTable.within_eq_some.mp ht
      obtain ⟨⟨d, v⟩, hconnect, rfl⟩ := Option.map_eq_some_iff.mp ht
      obtain ⟨hunique, hopen, hchain⟩ := PcbTable.tcpConnect_keeps h.unique h.unbound hi hconnect
      refine ⟨?_, hunique, hopen⟩
      rw [CacheValid, hchain]
      exact h.valid
  | attachFails i so =>
      rw [step] at hstep
      split_ifs at hstep with hfresh
      obtain rfl := Option.some.inj hstep
      have hmem : ∀ j, j ∈ ((s.table.inPcballoc i so).inPcbdetach i).chain → j ∈ (s.table.inPcballoc i so).chain :=
        fun j hj => (List.mem_filter.mp hj).1
      refine ⟨?_, ?_, fun j hj => h.unbound.alloc so j (hmem j hj)⟩
      · rcases h.valid with hlast | ⟨j, hj, hlast⟩
        · exact .inl hlast
        · have hji : j ≠ i := fun heq => hfresh.2 (heq ▸ hj)
          exact .inr ⟨j, List.mem_filter.mpr ⟨List.mem_cons_of_mem i hj, by simpa using hji⟩, hlast⟩
      · exact fun j hj k hk => h.unique.alloc so j (hmem j hj) k (hmem k hk)
  | input src sport dst dport =>
      obtain ⟨r, hr, rfl⟩ := Option.map_eq_some_iff.mp hstep
      refine ⟨?_, h.unique, h.unbound⟩
      rcases findpcb_last hr with hlast | ⟨i, hi, hlast⟩
      · rw [CacheValid, hlast]
        exact h.valid
      · exact .inr ⟨i, hi, hlast⟩

omit [DecidableEq ι] in
theorem cacheInv_start (inp : ι → Inpcb) : (start .tcp inp).CacheInv :=
  ⟨.inl rfl, fun _ hi => absurd hi (List.not_mem_nil), fun _ hi => absurd hi (List.not_mem_nil)⟩

/-- One call of TCP. -/
theorem callRight_iff (h : s.CacheInv) (c : DemuxCall ι) :
    (s.InputRight c ∧ ∀ u ∈ step .tcp s c, u.CacheValid) ↔ s.InputOk c := by
  constructor
  · rintro ⟨hright, hvalid⟩
    cases c with
    | input src sport dst dport => exact (inputRight_iff h.valid h.unique).mp hright
    | tcpConnect e i nam => trivial
    | attachFails i so => trivial
    | pcb c =>
        cases c with
        | disconnect i =>
            intro hi hfd hlast
            have hstep : step .tcp s (.pcb (.disconnect i)) = some ⟨s.table.inPcbdisconnect i, s.last⟩ := by
              rw [step, if_pos (by trivial), PcbTable.step, PcbTable.within, if_pos hi]
              rfl
            rcases hvalid _ hstep with hhead | ⟨j, hj, hjlast⟩
            · exact absurd (hlast.symm.trans hhead) (by simp)
            · obtain rfl : i = j := LastInpcb.pcb.inj (hlast.symm.trans hjlast)
              simp [PcbTable.inPcbdisconnect, PcbTable.setForeign, PcbTable.inPcbdetach, hfd] at hj
        | _ => trivial
  · intro hok
    refine ⟨?_, fun u hu => (h.call hok hu).valid⟩
    cases c with
    | input src sport dst dport => exact (inputRight_iff h.valid h.unique).mpr hok
    | _ => trivial

/-- The pointer is good and the block for every packet is the right one, from the start on, exactly for TCP, as long as
packets from the wildcard address are met by the first block for them. -/
theorem cacheRight_iff (p : PcbProto) (inp : ι → Inpcb) (cs : List (DemuxCall ι)) :
    CacheRight p inp cs ↔ p = .tcp ∧ AllCalls (step p) InputOk (start p inp) cs := by
  cases p with
  | udp =>
      refine iff_of_false ?_ (by simp)
      rintro ⟨hvalid, -⟩
      rcases hvalid with hhead | ⟨i, -, hlast⟩
      · cases hhead
      · cases hlast
  | tcp =>
      have hstart := cacheInv_start inp
      have hiff : AllCalls (step .tcp) (fun s c => s.InputRight c ∧ ∀ u ∈ step .tcp s c, u.CacheValid)
          (start .tcp inp) cs ↔ AllCalls (step .tcp) InputOk (start .tcp inp) cs :=
        allCalls_iff_of_inv CacheInv (fun s c hs => callRight_iff hs c) (fun _ _ _ hs hok hstep => hs.call hok hstep)
          hstart cs
      rw [CacheRight, hiff]
      exact ⟨fun h => ⟨rfl, h.2⟩, fun h => ⟨hstart.valid, h.2⟩⟩

/-- The first datagram reads through a null pointer. -/
theorem cacheRight_first_datagram :
    ¬ CacheRight .udp (fun _ : Fin 1 => Inpcb.new ⟨0, false, false⟩)
      [.input 0x0200000a (htons 2000) 0x0100000a (htons 53)] := by
  rintro ⟨-, ⟨⟨r, hr, -⟩, -⟩, -⟩
  cases hr

end Demux

end Shaunos.Net
