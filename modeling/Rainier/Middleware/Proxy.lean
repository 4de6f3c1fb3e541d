import Mathlib.Data.List.TakeWhile
import Rainier.Support.Ip
import Rainier.Support.Split

/-! # Trusted proxies

Every proxy on the way adds the address it was called from to a header, inside its last line or as a
further one. The middleware reads one line, the first, from its right end.
-/
namespace Rainier.Middleware

structure Cidr where
  address : IpAddr
  bits : ℕ
  deriving DecidableEq, Repr

namespace Cidr

/-- A bare address is a network of one host. -/
def parse (value : String) : Option Cidr := do
  let value := Text.trim value
  let (address,bits) := match Text.splitOnce '/' value with
    | some (address,bits) => (address,some bits)
    | none => (value,none)
  let address ← IpAddr.parse address
  let full := if address.isIpv4 then 32 else 128
  match bits with
  | some bits =>
    let bits ← Text.parseUInt 255 bits
    if full < bits then none else return ⟨address,bits⟩
  | none => return ⟨address,full⟩

/-- Whether the first bits of two addresses agree. -/
def agree (network candidate : List UInt8) (bits : ℕ) : Bool :=
  let whole := bits / 8
  if network.take whole ≠ candidate.take whole then false
  else if bits % 8 = 0 then true
  else
    let mask : UInt8 := 0xff <<< (8 - bits % 8).toUInt8
    (network.getD whole 0) &&& mask = (candidate.getD whole 0) &&& mask

/-- An address of one family is in no network of the other. -/
def contains (c : Cidr) (candidate : IpAddr) : Bool :=
  if c.address.isIpv4 = candidate.isIpv4 then agree c.address.octets candidate.octets c.bits else false

end Cidr

inductive Trusted where
  | none
  | all
  | these (networks : List Cidr)
  deriving DecidableEq, Repr

namespace Trusted

def accepts (t : Trusted) (peer : IpAddr) : Bool :=
  match t with
  | .none => false
  | .all => true
  | .these networks => networks.any (·.contains peer)

/-- Whether an address is skipped when the client is looked for. -/
def isKnownHop (t : Trusted) (address : IpAddr) : Bool :=
  match t with
  | .none | .all => false
  | .these networks => networks.any (·.contains address)

end Trusted

structure TrustProxies where
  trusted : Trusted
  deriving DecidableEq, Repr

/-- `HeaderValue::to_str` reads visible ASCII only. -/
def readable (line : String) : Bool := line.toList.all fun c => (32 ≤ c.toNat && c.toNat < 127) || c = '\t'

/-- `Request::header`: the first line of that name. -/
def header (lines : List String) : Option String := lines.head?.filter readable

/-- The addresses of a line, garbage left out. -/
def addresses (line : String) : List IpAddr := (Text.split ',' line).filterMap fun entry => IpAddr.parse (Text.trim entry)

namespace TrustProxies

/-- Entries that cannot be read are dropped. -/
def these (networks : List String) : TrustProxies := ⟨.these (networks.filterMap Cidr.parse)⟩

def resolve (t : TrustProxies) (lines : List String) (peer : IpAddr) : IpAddr :=
  if !t.trusted.accepts peer then peer
  else match header lines with
    | none => peer
    | some line => ((addresses line).reverse.find? (!t.trusted.isKnownHop ·)).getD peer

end TrustProxies

/-! ## The way through the proxies -/

inductive Mode where
  | inside | further
  deriving DecidableEq, Repr

/-- A proxy, with the text it adds for the address it is called from. -/
structure Hop where
  address : IpAddr
  mode : Mode
  entry : String
  deriving DecidableEq, Repr

/-- Where there is no line yet a proxy begins one. -/
def Hop.append (lines : List String) (hop : Hop) : List String :=
  match hop.mode,lines.getLast? with
  | .inside,some last => lines.dropLast ++ [last ++ "," ++ hop.entry]
  | _,_ => lines ++ [hop.entry]

def forward (lines : List String) (hops : List Hop) : List String := hops.foldl Hop.append lines

/-- A text that stands for an address in a list of them. -/
structure Names (entry : String) (address : IpAddr) : Prop where
  readable : readable entry = true
  single : ',' ∉ entry.toList
  parsed : IpAddr.parse (Text.trim entry) = some address

/-- Trusted proxies that call one another, the first one called from an address. -/
def Relayed (t : Trusted) : IpAddr → List Hop → Prop
  | _,[] => True
  | peer,hop :: rest => Names hop.entry peer ∧ t.isKnownHop hop.address = true ∧ Relayed t hop.address rest

/-! ## What the first line holds -/

theorem addresses_append (line : String) {entry : String} {address : IpAddr} (h : Names entry address) :
    addresses (line ++ "," ++ entry) = addresses line ++ [address] := by
  have hsplit : Text.split ',' (line ++ "," ++ entry) = Text.split ',' line ++ [entry] := by
    have hjoin : line ++ "," ++ entry = Text.join ',' (Text.split ',' line ++ [entry]) := by
      rw [Text.join_concat (Text.split_ne_nil line),Text.join_split]
      rfl
    rw [hjoin]
    apply Text.split_join (by simp)
    intro piece hpiece
    rcases List.mem_append.1 hpiece with hpiece | hpiece
    · exact Text.not_mem_of_mem_split hpiece
    · rw [List.mem_singleton.1 hpiece]
      exact h.single
  rw [addresses,hsplit,List.filterMap_append]
  simp [addresses,h.parsed]

theorem addresses_entry {entry : String} {address : IpAddr} (h : Names entry address) : addresses entry = [address] := by
  have hsplit : Text.split ',' entry = [entry] := by
    have hpieces : Text.split ',' (Text.join ',' [entry]) = [entry] := Text.split_join (by simp) (by simpa using h.single)
    rwa [Text.join_singleton] at hpieces
  simp [addresses,hsplit,h.parsed]

theorem readable_append (line entry : String) : readable (line ++ "," ++ entry) = (readable line && readable entry) := by
  simp [readable,List.all_append]

/-- Two lines or more: the first one stays as it is. -/
theorem head_forward_of_two (first second : String) (lines : List String) (hops : List Hop) :
    (forward (first :: second :: lines) hops).head? = some first := by
  induction hops generalizing second lines with
  | nil => rfl
  | cons hop hops ih =>
    have hstep : ∃ second' lines', Hop.append (first :: second :: lines) hop = first :: second' :: lines' := by
      rw [Hop.append]
      split
      · rw [List.dropLast_cons_cons]
        cases hrest : (second :: lines).dropLast ++ [_] with
        | nil => simp at hrest
        | cons second' lines' => exact ⟨second',lines',by rw [List.cons_append,hrest]⟩
      · exact ⟨second,lines ++ [hop.entry],rfl⟩
    obtain ⟨second',lines',heq⟩ := hstep
    rw [forward,List.foldl_cons,heq]
    exact ih second' lines'

/-- One line: what the first proxies write inside is added to it. -/
theorem head_forward_of_one (t : Trusted) (line : String) (hops : List Hop) {peer : IpAddr} (hrelayed : Relayed t peer hops)
    (hpeer : t.isKnownHop peer = true) : ∃ line' added, (forward [line] hops).head? = some line' ∧
      addresses line' = addresses line ++ added ∧ (∀ a ∈ added, t.isKnownHop a = true) ∧ readable line' = readable line := by
  induction hops generalizing line peer with
  | nil => exact ⟨line,[],rfl,by simp,by simp,rfl⟩
  | cons hop hops ih =>
    obtain ⟨hnames,hknown,hrest⟩ := hrelayed
    cases hmode : hop.mode with
    | further =>
      refine ⟨line,[],?_,by simp,by simp,rfl⟩
      have hstep : Hop.append [line] hop = [line,hop.entry] := by
        rw [Hop.append,hmode]
        rfl
      rw [forward,List.foldl_cons,hstep]
      exact head_forward_of_two line hop.entry [] hops
    | inside =>
      have hstep : Hop.append [line] hop = [line ++ "," ++ hop.entry] := by
        rw [Hop.append,hmode]
        rfl
      obtain ⟨line',added,hhead,haddresses,hadded,hreadable⟩ := ih (line ++ "," ++ hop.entry) hrest hknown
      refine ⟨line',peer :: added,?_,?_,?_,?_⟩
      · rw [forward,List.foldl_cons,hstep]
        exact hhead
      · rw [haddresses,addresses_append line hnames,List.append_assoc]
        rfl
      · simpa [hpeer] using hadded
      · rw [hreadable,readable_append,hnames.readable,Bool.and_true]

theorem known_of_relayed {t : Trusted} {peer : IpAddr} {hops : List Hop} (h : Relayed t peer hops) :
    ∀ hop ∈ hops, t.isKnownHop hop.address = true := by
  induction hops generalizing peer with
  | nil => simp
  | cons first hops ih =>
    obtain ⟨-,hknown,hrest⟩ := h
    intro hop hhop
    rcases List.mem_cons.1 hhop with rfl | hhop
    · exact hknown
    · exact ih hrest hop hhop

/-! ## Who is credited -/

section Resolve

variable {t : TrustProxies} {lines : List String} {line : String} {peer c : IpAddr}

theorem header_eq (hhead : lines.head? = some line) : header lines = if readable line then some line else none := by
  rw [header,hhead]
  cases h : readable line <;> simp [Option.filter,h]

theorem resolve_of_unreadable (hhead : lines.head? = some line) (h : readable line = false) : t.resolve lines peer = peer := by
  rw [TrustProxies.resolve,header_eq hhead,h]
  exact ite_self peer

theorem resolve_of_no_addresses (hhead : lines.head? = some line) (h : addresses line = []) : t.resolve lines peer = peer := by
  rw [TrustProxies.resolve,header_eq hhead]
  cases readable line <;> simp [h]

/-- The first address from the right that is no known hop. -/
theorem resolve_of_addresses (hpeer : t.trusted.accepts peer = true) (hhead : lines.head? = some line)
    (hreadable : readable line = true) (before : List IpAddr) {added : List IpAddr}
    (haddresses : addresses line = before ++ [c] ++ added)
    (hadded : ∀ a ∈ added, t.trusted.isKnownHop a = true) (hc : t.trusted.isKnownHop c = false) :
    t.resolve lines peer = c := by
  have hskip : added.reverse.find? (!t.trusted.isKnownHop ·) = none := by
    rw [List.find?_eq_none]
    intro a ha
    simp [hadded a (List.mem_reverse.1 ha)]
  rw [TrustProxies.resolve,header_eq hhead,hreadable]
  simp [haddresses,hpeer,hskip,hc]

end Resolve

/-- Which lines of a header can be read at all. -/
def shape (lines : List String) : List Bool := lines.map readable

/-- A line without an address in it. -/
def silent (b : Bool) : String := if b then "" else "\u00e9"

theorem readable_silent (b : Bool) : readable (silent b) = b := by
  cases b <;> decide

theorem addresses_silent (b : Bool) : addresses (silent b) = [] := by
  cases b <;> decide

theorem resolve_silent {t : TrustProxies} {peer : IpAddr} {first : Hop} {hops : List Hop}
    (hrest : Relayed t.trusted first.address hops) (hknown : t.trusted.isKnownHop first.address = true) {sent : List Bool}
    (hne : sent ≠ []) (hadded : ¬ (sent = [true] ∧ first.mode = .inside)) :
    t.resolve (forward (sent.map silent) (first :: hops)) peer = peer := by
  obtain ⟨b,sent,rfl⟩ := List.exists_cons_of_ne_nil hne
  cases sent with
  | cons b' sent =>
    exact resolve_of_no_addresses (head_forward_of_two (silent b) (silent b') _ _) (addresses_silent b)
  | nil =>
    cases hmode : first.mode with
    | further =>
      have hforward : forward [silent b] (first :: hops) = forward [silent b,first.entry] hops := by
        rw [forward,List.foldl_cons,Hop.append,hmode]
        rfl
      rw [List.map_singleton,hforward]
      exact resolve_of_no_addresses (head_forward_of_two (silent b) first.entry [] hops) (addresses_silent b)
    | inside =>
      -- then the line is one that cannot be read, and stays so
      have hb : b = false := by
        cases b
        · rfl
        · exact absurd ⟨rfl,hmode⟩ hadded
      have hforward : forward [silent b] (first :: hops) = forward [silent b ++ "," ++ first.entry] hops := by
        rw [forward,List.foldl_cons,Hop.append,hmode]
        rfl
      obtain ⟨line,added,hhead,-,-,hreadable⟩ := head_forward_of_one _ (silent b ++ "," ++ first.entry) hops hrest hknown
      rw [List.map_singleton,hforward]
      apply resolve_of_unreadable hhead
      rw [hreadable,readable_append,readable_silent,hb]
      rfl

/-- An untrusted client is credited with its own address whatever it sends, for some lines and some
trusted proxies, exactly when there is no line of it or one, readable, that the first proxy adds to.
From a peer that is not trusted no line counts. -/
theorem client_credited_iff (networks : List String) {c : IpAddr} {first : Hop} {hops : List Hop}
    (hc : (TrustProxies.these networks).trusted.isKnownHop c = false)
    (hrelayed : Relayed (TrustProxies.these networks).trusted c (first :: hops)) (sent : List Bool) :
    ((∀ client, shape client = sent → (TrustProxies.these networks).resolve (forward client (first :: hops))
      ((first :: hops).getLast (List.cons_ne_nil _ _)).address = c) ↔ sent = [] ∨ (sent = [true] ∧ first.mode = .inside)) ∧
    ∀ lines peer, (TrustProxies.these networks).trusted.accepts peer = false →
      (TrustProxies.these networks).resolve lines peer = peer := by
  generalize hlast : ((first :: hops).getLast (List.cons_ne_nil _ _)).address = peer
  have hpeer : (TrustProxies.these networks).trusted.isKnownHop peer = true := by
    rw [← hlast]
    exact known_of_relayed hrelayed _ (List.getLast_mem _)
  have haccepts : (TrustProxies.these networks).trusted.accepts peer = true := hpeer
  have hne : peer ≠ c := by
    rintro rfl
    rw [hpeer] at hc
    cases hc
  obtain ⟨hnames,hknown,hrest⟩ := hrelayed
  refine ⟨?_,fun lines peer hpeer => by rw [TrustProxies.resolve,hpeer]; rfl⟩
  constructor
  · intro hall
    by_contra hsent
    rw [not_or] at hsent
    -- lines that say nothing leave the last proxy to be credited
    have hshape : shape (sent.map silent) = sent := by
      rw [shape,List.map_map]
      exact (List.map_congr_left fun b _ => readable_silent b).trans (List.map_id sent)
    apply hne
    rw [← hall (sent.map silent) hshape]
    exact (resolve_silent hrest hknown hsent.1 hsent.2).symm
  · rintro (rfl | ⟨rfl,hmode⟩) client hclient
    · obtain rfl : client = [] := List.map_eq_nil_iff.1 hclient
      have hforward : forward [] (first :: hops) = forward [first.entry] hops := by
        rw [forward,List.foldl_cons,Hop.append]
        cases first.mode <;> rfl
      obtain ⟨line,added,hhead,haddresses,hadded,hreadable⟩ := head_forward_of_one _ first.entry hops hrest hknown
      rw [hforward]
      apply resolve_of_addresses haccepts hhead (hreadable.trans hnames.readable) [] _ hadded hc
      rw [haddresses,addresses_entry hnames]
      rfl
    · obtain ⟨line,rfl,hline⟩ : ∃ line, client = [line] ∧ readable line = true := by
        rw [shape] at hclient
        obtain ⟨line,rest,rfl,hline,hnil⟩ := List.map_eq_cons_iff.1 hclient
        exact ⟨line,by rw [List.map_eq_nil_iff.1 hnil],hline⟩
      have hforward : forward [line] (first :: hops) = forward [line ++ "," ++ first.entry] hops := by
        rw [forward,List.foldl_cons,Hop.append,hmode]
        rfl
      obtain ⟨line',added,hhead,haddresses,hadded,hreadable⟩ :=
        head_forward_of_one _ (line ++ "," ++ first.entry) hops hrest hknown
      rw [hforward]
      apply resolve_of_addresses haccepts hhead _ (addresses line) _ hadded hc
      · rw [hreadable,readable_append,hline,hnames.readable]
        rfl
      · rw [haddresses,addresses_append line hnames]

/-- A client at `203.0.113.9`, seen by the one proxy at `10.0.0.1`. -/
def client : IpAddr := .v4 #v[203,0,113,9]

def proxy (mode : Mode) : Hop := ⟨.v4 #v[10,0,0,1],mode," 203.0.113.9"⟩

theorem relayed_proxy (mode : Mode) : Relayed (TrustProxies.these ["10.0.0.0/8"]).trusted client [proxy mode] := by
  have hnames : Names " 203.0.113.9" client := ⟨by decide,by decide,by decide⟩
  have hknown : (TrustProxies.these ["10.0.0.0/8"]).trusted.isKnownHop (.v4 #v[10,0,0,1]) = true := by decide
  exact ⟨hnames,hknown,trivial⟩

theorem forged_line_ignored : (TrustProxies.these ["10.0.0.0/8"]).resolve (forward ["1.2.3.4"] [proxy .inside])
    (.v4 #v[10,0,0,1]) = client :=
  (client_credited_iff ["10.0.0.0/8"] (by decide) (relayed_proxy .inside) [true]).1.2 (.inr ⟨rfl,rfl⟩) ["1.2.3.4"]
    (by decide)

/-- A proxy that adds a further line leaves the first one to the client. -/
theorem forged_line_believed : ¬ ∀ (networks : List String) (c : IpAddr) (lines : List String) (first : Hop) (hops : List Hop),
    (TrustProxies.these networks).trusted.isKnownHop c = false →
    Relayed (TrustProxies.these networks).trusted c (first :: hops) →
    (TrustProxies.these networks).resolve (forward lines (first :: hops))
      ((first :: hops).getLast (List.cons_ne_nil _ _)).address = c := by
  intro h
  have hcredited := h ["10.0.0.0/8"] client ["1.2.3.4"] (proxy .further) [] (by decide) (relayed_proxy .further)
  revert hcredited
  decide

end Rainier.Middleware
