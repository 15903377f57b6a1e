import InferStack.Kit.Machine
import InferStack.Kit.Pool
import InferStack.EnvText
import InferStack.Store

/-!
# InferStack.Addresses

Stable per-service addresses: the subnet, the allocation of new addresses and
the append-only table of the ledger.

A preview allocates over the stored table without writing it; a commit writes a
table that was allocated before, perhaps over an older one.  `addressBook_inv`
is what every run of both keeps.
-/

namespace InferStack

open Kit

/-! ## addresses and their texts -/

/-- An octet, in decimal digits. -/
def octetText (o : Nat) : List Char := (Nat.repr o).toList

/-- The dotted text of an address. -/
def ipv4Text (a : Nat) : String :=
  String.ofList (octetText (a / 2 ^ 24 % 256) ++ '.' :: (octetText (a / 2 ^ 16 % 256) ++
    '.' :: (octetText (a / 2 ^ 8 % 256) ++ '.' :: octetText (a % 256))))

/-- The parts of a text between its dots. -/
def splitDots : List Char → List (List Char)
  | [] => [[]]
  | c :: cs => if c = '.' then [] :: splitDots cs else consLine c (splitDots cs)

/-- At most three decimal digits, without a leading zero, at most 255. -/
def parseOctet (l : List Char) : Option Nat :=
  if l = [] ∨ l.length > 3 ∨ (l.head? = some '0' ∧ l.length ≠ 1) ∨ ¬ l.all Char.isDigit then none
  else
    let o := l.foldl (fun n c => 10 * n + (c.toNat - 48)) 0
    if o ≤ 255 then some o else none

/-- The address that a text is. -/
def parseIpv4 (s : String) : Option Nat :=
  match splitDots s.toList with
  | [a, b, c, d] => do
      let a ← parseOctet a
      let b ← parseOctet b
      let c ← parseOctet c
      let d ← parseOctet d
      return a * 2 ^ 24 + b * 2 ^ 16 + c * 2 ^ 8 + d
  | _ => none

theorem splitDots_of_not_mem {l : List Char} (h : '.' ∉ l) : splitDots l = [l] := by
  induction l with
  | nil => rfl
  | cons c l ih =>
      have hc : c ≠ '.' := fun heq => h (heq ▸ List.mem_cons_self)
      have hl : splitDots l = [l] := ih fun hin => h (List.mem_cons_of_mem _ hin)
      rw [splitDots, if_neg hc, hl]
      rfl

theorem splitDots_append {l : List Char} (h : '.' ∉ l) (more : List Char) :
    splitDots (l ++ '.' :: more) = l :: splitDots more := by
  induction l with
  | nil => simp [splitDots]
  | cons c l ih =>
      have hc : c ≠ '.' := fun heq => h (heq ▸ List.mem_cons_self)
      have hl := ih fun hin => h (List.mem_cons_of_mem _ hin)
      rw [List.cons_append, splitDots, if_neg hc, hl]
      rfl

theorem parseOctet_text {o : Nat} (h : o < 256) :
    parseOctet (octetText o) = some o ∧ '.' ∉ octetText o := by
  have hall : ∀ o ∈ List.range 256, parseOctet (octetText o) = some o ∧ '.' ∉ octetText o := by
    decide +kernel
  exact hall o (List.mem_range.mpr h)

/-- An address is read back from its text. -/
theorem parseIpv4_text {a : Nat} (h : a < 2 ^ 32) : parseIpv4 (ipv4Text a) = some a := by
  obtain ⟨h₁, hdot₁⟩ := parseOctet_text (o := a / 2 ^ 24 % 256) (Nat.mod_lt _ (by decide))
  obtain ⟨h₂, hdot₂⟩ := parseOctet_text (o := a / 2 ^ 16 % 256) (Nat.mod_lt _ (by decide))
  obtain ⟨h₃, hdot₃⟩ := parseOctet_text (o := a / 2 ^ 8 % 256) (Nat.mod_lt _ (by decide))
  obtain ⟨h₄, hdot₄⟩ := parseOctet_text (o := a % 256) (Nat.mod_lt _ (by decide))
  have hsplit : splitDots (ipv4Text a).toList = [octetText (a / 2 ^ 24 % 256),
      octetText (a / 2 ^ 16 % 256), octetText (a / 2 ^ 8 % 256), octetText (a % 256)] := by
    unfold ipv4Text
    rw [String.toList_ofList, splitDots_append hdot₁, splitDots_append hdot₂,
      splitDots_append hdot₃, splitDots_of_not_mem hdot₄]
  have hsum : a / 2 ^ 24 % 256 * 2 ^ 24 + a / 2 ^ 16 % 256 * 2 ^ 16 + a / 2 ^ 8 % 256 * 2 ^ 8 +
      a % 256 = a := by omega
  unfold parseIpv4
  rw [hsplit]
  simp only [h₁, h₂, h₃, h₄, Option.bind_eq_bind, Option.bind_some, Option.pure_def, hsum]

theorem ipv4Text_inj {a b : Nat} (ha : a < 2 ^ 32) (hb : b < 2 ^ 32)
    (h : ipv4Text a = ipv4Text b) : a = b := by
  have hparse := parseIpv4_text ha
  rw [h, parseIpv4_text hb] at hparse
  exact (Option.some.inj hparse).symm

/-! ## subnets -/

/-- An IPv4 network: its first address and the length of its prefix. -/
structure Subnet where
  network : Nat
  prefixlen : Nat
  prefixlen_le : prefixlen ≤ 32
  aligned : 2 ^ (32 - prefixlen) ∣ network
  fits : network + 2 ^ (32 - prefixlen) ≤ 2 ^ 32

namespace Subnet

def size (net : Subnet) : Nat := 2 ^ (32 - net.prefixlen)

def broadcast (net : Subnet) : Nat := net.network + net.size - 1

/-- The host addresses: all but the network and the broadcast address, where the
prefix leaves room for these. -/
def hosts (net : Subnet) : List Nat :=
  if 31 ≤ net.prefixlen then List.range' net.network net.size
  else List.range' (net.network + 1) (net.size - 2)

/-- The address of the gateway; there is none after the last address. -/
def gateway? (net : Subnet) : Option Nat :=
  if net.network + 1 < 2 ^ 32 then some (net.network + 1) else none

end Subnet

/-! ## allocation -/

/-- Why an allocation fails: a text that is no address, an address out of range, or a
subnet without a free address for a service. -/
inductive AddressError where
  | notAnAddress (text : String)
  | outOfRange
  | noFreeAddress (service : String)
  deriving DecidableEq, Repr

def parseAll : List String → Except AddressError (List Nat)
  | [] => .ok []
  | text :: texts => do
      let some a := parseIpv4 text | .error (.notAnAddress text)
      return a :: (← parseAll texts)

/-- The lowest usable host address that is not taken. -/
def nextFreeAddress (net : Subnet) (taken : Dict String String) :
    Except AddressError (Option String) := do
  let used ← parseAll taken.values
  let some gateway := net.gateway? | .error .outOfRange
  return (net.hosts.find? fun host => host ≠ gateway ∧ host ∉ used).map ipv4Text

def allocateNames (net : Subnet) : Dict String String → List String →
    Except AddressError (Dict String String)
  | table, [] => .ok table
  | table, name :: names =>
      if name ∈ table.keys then allocateNames net table names
      else do
        let some ip ← nextFreeAddress net table | .error (.noFreeAddress name)
        allocateNames net (table.set name ip) names

/-- Addresses for some services: existing ones are kept, new ones are appended in order. -/
def allocate (net : Subnet) (existing : Dict String String) (services : List String) :
    Except AddressError (Dict String String) :=
  allocateNames net existing (services.insertionSort (· ≤ ·))

/-! ## usable addresses -/

/-- An address a service may get: inside the subnet, not the gateway, not the network or
the broadcast address, which a subnet with a prefix below 31 has, and not the limited
broadcast address. -/
structure Usable (net : Subnet) (a : Nat) : Prop where
  inside : net.network ≤ a ∧ a ≤ net.broadcast
  notGateway : a ≠ net.network + 1
  notReserved : net.prefixlen < 31 → a ≠ net.network ∧ a ≠ net.broadcast
  notLimited : a ≠ 2 ^ 32 - 1

namespace Subnet

variable {net : Subnet}

def usable (net : Subnet) : List Nat :=
  net.hosts.filter fun a => a ≠ net.network + 1 ∧ a ≠ 2 ^ 32 - 1

theorem size_pos : 0 < net.size := Nat.two_pow_pos _

theorem four_le_size (h : net.prefixlen < 31) : 4 ≤ net.size := by
  have hpow : 2 ^ 2 ≤ 2 ^ (32 - net.prefixlen) := Nat.pow_le_pow_right (by decide) (by omega)
  exact hpow

theorem mem_hosts {a : Nat} : a ∈ net.hosts ↔ (net.network ≤ a ∧ a ≤ net.broadcast) ∧
    (net.prefixlen < 31 → a ≠ net.network ∧ a ≠ net.broadcast) := by
  have hpos := net.size_pos
  unfold hosts broadcast
  by_cases hlong : 31 ≤ net.prefixlen
  · rw [if_pos hlong, List.mem_range'_1]
    omega
  · have hsize : 4 ≤ net.size := four_le_size (by omega)
    rw [if_neg hlong, List.mem_range'_1]
    omega

theorem mem_usable {a : Nat} : a ∈ net.usable ↔ Usable net a := by
  unfold usable
  rw [List.mem_filter, mem_hosts, decide_eq_true_eq]
  constructor
  · rintro ⟨⟨hinside, hreserved⟩, hgateway, hlimited⟩
    exact ⟨hinside, hgateway, hreserved, hlimited⟩
  · intro h
    exact ⟨⟨h.inside, h.notReserved⟩, h.notGateway, h.notLimited⟩

theorem nodup_usable : net.usable.Nodup := by
  refine List.Nodup.filter _ ?_
  unfold hosts
  split
  · exact List.nodup_range'
  · exact List.nodup_range'

theorem lt_of_mem_hosts {a : Nat} (h : a ∈ net.hosts) : a < 2 ^ 32 := by
  have hle := (mem_hosts.mp h).1.2
  have hfits : net.network + net.size ≤ 2 ^ 32 := net.fits
  have hpos := net.size_pos
  unfold broadcast at hle
  omega

/-- Leaving out the gateway leaves out the limited broadcast address. -/
theorem ne_limited {a : Nat} (ha : a ∈ net.hosts) (hroom : net.network + 1 < 2 ^ 32)
    (hgateway : a ≠ net.network + 1) : a ≠ 2 ^ 32 - 1 := by
  obtain ⟨⟨-, hle⟩, hreserved⟩ := mem_hosts.mp ha
  have hfits : net.network + net.size ≤ 2 ^ 32 := net.fits
  have hpos := net.size_pos
  unfold broadcast at hle hreserved
  by_cases hlong : 31 ≤ net.prefixlen
  · have hsize : net.size ≤ 2 := by
      have hpow : 2 ^ (32 - net.prefixlen) ≤ 2 ^ 1 :=
        Nat.pow_le_pow_right (by decide) (by omega)
      exact hpow
    omega
  · have hnot := hreserved (by omega)
    omega

/-- A subnet without a gateway address has no usable address. -/
theorem usable_eq_nil (h : ¬ net.network + 1 < 2 ^ 32) : net.usable = [] := by
  refine List.filter_eq_nil_iff.mpr fun a ha => ?_
  have hlt := lt_of_mem_hosts ha
  have hle := (mem_hosts.mp ha).1.1
  have hlimited : a = 2 ^ 32 - 1 := by omega
  simp [hlimited]

end Subnet

/-- The texts of the addresses a service may get. -/
def addressPool (net : Subnet) : List String := net.usable.map ipv4Text

/-! ## allocation draws from the pool -/

/-- A table of addresses. -/
def AddressTexts (table : Dict String String) : Prop :=
  ∀ service ip, table.get? service = some ip → ∃ a, a < 2 ^ 32 ∧ ip = ipv4Text a

theorem parseAll_texts {texts : List String} (h : ∀ t ∈ texts, ∃ a, a < 2 ^ 32 ∧ t = ipv4Text a) :
    ∃ used, parseAll texts = .ok used ∧ ∀ a, a < 2 ^ 32 → (a ∈ used ↔ ipv4Text a ∈ texts) := by
  induction texts with
  | nil => exact ⟨[], rfl, fun a _ => by simp⟩
  | cons t texts ih =>
      obtain ⟨used, hparse, hused⟩ := ih fun t ht => h t (List.mem_cons_of_mem _ ht)
      obtain ⟨b, hb, rfl⟩ := h t List.mem_cons_self
      refine ⟨b :: used, ?_, fun a ha => ?_⟩
      · simp only [parseAll, parseIpv4_text hb, hparse]
        rfl
      · have hone : a = b ↔ ipv4Text a = ipv4Text b :=
          ⟨fun heq => heq ▸ rfl, fun heq => ipv4Text_inj ha hb heq⟩
        rw [List.mem_cons, List.mem_cons, hused a ha, hone]

/-- The next free address is the first one of the pool. -/
theorem nextFreeAddress_eq (net : Subnet) {taken : Dict String String} (h : AddressTexts taken) :
    (nextFreeAddress net taken).toOption.join = firstFree (addressPool net) taken.values := by
  have htexts : ∀ t ∈ taken.values, ∃ a, a < 2 ^ 32 ∧ t = ipv4Text a := by
    intro t ht
    obtain ⟨service, hget⟩ := Dict.mem_values.mp ht
    exact h service t hget
  obtain ⟨used, hparse, hused⟩ := parseAll_texts htexts
  unfold nextFreeAddress
  rw [hparse]
  by_cases hroom : net.network + 1 < 2 ^ 32
  · have hgateway : net.gateway? = some (net.network + 1) := if_pos hroom
    have hsame : net.hosts.find? (fun host => host ≠ net.network + 1 ∧ host ∉ used) =
        net.usable.find? fun a => ipv4Text a ∉ taken.values := by
      unfold Subnet.usable
      rw [List.find?_filter, ← List.head?_filter, ← List.head?_filter]
      refine congrArg List.head? (List.filter_congr fun a ha => ?_)
      have hiff := hused a (Subnet.lt_of_mem_hosts ha)
      have hlimited := Subnet.ne_limited ha hroom
      grind
    simp only [hgateway]
    show ((net.hosts.find? _).map ipv4Text) = _
    rw [hsame, addressPool, firstFree, List.find?_map]
    rfl
  · have hgateway : net.gateway? = none := if_neg hroom
    simp only [hgateway]
    show none = _
    rw [addressPool, Subnet.usable_eq_nil hroom]
    rfl

theorem AddressTexts.set {table : Dict String String} (h : AddressTexts table) {service : String}
    {a : Nat} (ha : a < 2 ^ 32) : AddressTexts (table.set service (ipv4Text a)) := by
  intro service' ip hget
  rw [Dict.get?_set] at hget
  by_cases heq : service = service'
  · rw [if_pos heq] at hget
    exact ⟨a, ha, (Option.some.inj hget).symm⟩
  · rw [if_neg heq] at hget
    exact h service' ip hget

theorem mem_addressPool {net : Subnet} {ip : String} :
    ip ∈ addressPool net ↔ ∃ a, Usable net a ∧ ip = ipv4Text a := by
  unfold addressPool
  rw [List.mem_map]
  exact exists_congr fun a => and_congr Subnet.mem_usable eq_comm

theorem Usable.lt {net : Subnet} {a : Nat} (h : Usable net a) : a < 2 ^ 32 :=
  Subnet.lt_of_mem_hosts (List.mem_of_mem_filter (Subnet.mem_usable.mpr h))

theorem allocateNames_eq (net : Subnet) {table : Dict String String} (h : AddressTexts table)
    (names : List String) :
    (allocateNames net table names).toOption = assign (addressPool net) table names := by
  induction names generalizing table with
  | nil => rfl
  | cons name names ih =>
      unfold allocateNames assign
      by_cases hin : name ∈ table.keys
      · rw [if_pos hin, if_pos hin, ih h]
      · have hnext := nextFreeAddress_eq net h
        rw [if_neg hin, if_neg hin, ← hnext]
        cases hfree : nextFreeAddress net table with
        | error e => rfl
        | ok found =>
            cases found with
            | none => rfl
            | some ip =>
                rw [hfree] at hnext
                have hpool := (firstFree_eq_some hnext.symm).1
                obtain ⟨a, ha, rfl⟩ := mem_addressPool.mp hpool
                exact ih (h.set ha.lt)

theorem allocate_eq (net : Subnet) {table : Dict String String} (h : AddressTexts table)
    (services : List String) : (allocate net table services).toOption =
      assign (addressPool net) table (services.insertionSort (· ≤ ·)) :=
  allocateNames_eq net h _

/-- The order in which services are given does not matter. -/
theorem allocate_perm (net : Subnet) (table : Dict String String) {services services' : List String}
    (h : services.Perm services') : allocate net table services = allocate net table services' := by
  have hperm : (services.insertionSort (· ≤ ·)).Perm (services'.insertionSort (· ≤ ·)) :=
    ((List.perm_insertionSort _ services).trans h).trans (List.perm_insertionSort _ services').symm
  have hsame : services.insertionSort (· ≤ ·) = services'.insertionSort (· ≤ ·) :=
    hperm.eq_of_pairwise' (List.pairwise_insertionSort _ _) (List.pairwise_insertionSort _ _)
  unfold allocate
  rw [hsame]

/-- The services that have no address yet. -/
def newServices (table : Dict String String) (services : List String) : List String :=
  services.dedup.filter (· ∉ table.keys)

/-- The usable addresses that nobody has. -/
def freeAddresses (net : Subnet) (table : Dict String String) : List Nat :=
  net.usable.filter fun a => ipv4Text a ∉ table.values

theorem card_newServices (table : Dict String String) (services : List String) :
    ((services.insertionSort (· ≤ ·)).toFinset \ table.keys.toFinset).card =
      (newServices table services).length := by
  have hnodup : (newServices table services).Nodup := (List.nodup_dedup services).filter _
  rw [← List.toFinset_card_of_nodup hnodup]
  congr 1
  ext service
  simp [newServices, List.mem_insertionSort]

theorem card_freeAddresses (net : Subnet) (table : Dict String String) :
    ((addressPool net).toFinset \ table.values.toFinset).card =
      (freeAddresses net table).length := by
  have hnodup : ((freeAddresses net table).map ipv4Text).Nodup := by
    refine (Subnet.nodup_usable.filter _).map_on fun a ha b hb heq => ?_
    have hlt : ∀ c ∈ net.usable, c < 2 ^ 32 :=
      fun c hc => Subnet.lt_of_mem_hosts (List.mem_of_mem_filter hc)
    exact ipv4Text_inj (hlt a (List.mem_of_mem_filter ha)) (hlt b (List.mem_of_mem_filter hb)) heq
  rw [← List.length_map ipv4Text, ← List.toFinset_card_of_nodup hnodup]
  congr 1
  ext ip
  simp only [addressPool, freeAddresses, Finset.mem_sdiff, List.mem_toFinset, List.mem_map,
    List.mem_filter, decide_eq_true_eq]
  constructor
  · rintro ⟨⟨a, ha, rfl⟩, hfree⟩
    exact ⟨a, ⟨ha, hfree⟩, rfl⟩
  · rintro ⟨a, ⟨ha, hfree⟩, rfl⟩
    exact ⟨⟨a, ha, rfl⟩, hfree⟩

/-! ## what a table keeps -/

/-- No two services have one address, and every address is usable. -/
structure StableTable (net : Subnet) (table : Dict String String) : Prop where
  separate : Separate table
  usable : ∀ service ip, table.get? service = some ip → ∃ a, Usable net a ∧ ip = ipv4Text a

/-- What an allocation over a table gives. -/
structure AllocatesFrom (net : Subnet) (table : Dict String String) (services : List String) :
    Prop where
  /-- It succeeds exactly if there are enough free addresses. -/
  succeeds : (∃ t, allocate net table services = .ok t) ↔
    (newServices table services).length ≤ (freeAddresses net table).length
  /-- Every service given has an address then. -/
  serves : ∀ t, allocate net table services = .ok t → ∀ service ∈ services,
    ∃ ip, t.get? service = some ip
  /-- Every address stays. -/
  keeps : ∀ t, allocate net table services = .ok t → ∀ service ip,
    table.get? service = some ip → t.get? service = some ip
  order : ∀ services', services.Perm services' →
    allocate net table services = allocate net table services'

theorem StableTable.texts {net : Subnet} {table : Dict String String} (h : StableTable net table) :
    AddressTexts table := by
  intro service ip hget
  obtain ⟨a, ha, rfl⟩ := h.usable service ip hget
  exact ⟨a, ha.lt, rfl⟩

theorem assign_of_allocate {net : Subnet} {table t : Dict String String} (h : AddressTexts table)
    {services : List String} (ht : allocate net table services = .ok t) :
    assign (addressPool net) table (services.insertionSort (· ≤ ·)) = some t := by
  rw [← allocate_eq net h, ht]
  rfl

theorem allocatesFrom {net : Subnet} {table : Dict String String} (h : AddressTexts table)
    (services : List String) : AllocatesFrom net table services := by
  have hserves : ∀ t, allocate net table services = .ok t → ∀ service ∈ services,
      ∃ ip, t.get? service = some ip := fun t ht service hservice =>
    assign_serves (assign_of_allocate h ht) ((List.mem_insertionSort _).mpr hservice)
  refine ⟨?_, hserves, fun t ht service ip hget => assign_keeps (assign_of_allocate h ht) hget,
    fun services' hperm => allocate_perm net table hperm⟩
  have hsome := @isSome_assign _ _ _ _ (addressPool net) table
    (services.insertionSort (· ≤ ·))
  rw [card_newServices, card_freeAddresses, ← allocate_eq net h] at hsome
  rw [← hsome]
  cases allocate net table services with
  | ok t => simp [Except.toOption]
  | error e => simp [Except.toOption]

theorem StableTable.allocate {net : Subnet} {table t : Dict String String}
    (h : StableTable net table) {services : List String}
    (ht : InferStack.allocate net table services = .ok t) : StableTable net t := by
  have hassign := assign_of_allocate h.texts ht
  refine ⟨h.separate.assign hassign, fun service ip hget => ?_⟩
  cases assign_pool hassign hget with
  | inl hold => exact h.usable service ip hold
  | inr hpool => exact mem_addressPool.mp hpool

/-! ## runs of previews and commits -/

/-- Rows that were added to a table: nothing is lost, only they are new, and all
of them are there. -/
structure Added (rows : List (String × String)) (d d' : Dict String String) : Prop where
  keeps : ∀ service ip, d.get? service = some ip → d'.get? service = some ip
  given : ∀ service ip, d'.get? service = some ip →
    d.get? service = some ip ∨ (service, ip) ∈ rows
  separate : Separate d → Separate d'
  stores : ∀ kv ∈ rows, d'.get? kv.1 = some kv.2

namespace Added

variable {rows rows' : List (String × String)} {d d' d'' : Dict String String}
  {service ip : String}

theorem refl (d : Dict String String) : Added [] d d where
  keeps _ _ hget := hget
  given _ _ hget := .inl hget
  separate hsep := hsep
  stores _ hkv := by contradiction

theorem trans (h : Added rows d d') (h' : Added rows' d' d'') : Added (rows ++ rows') d d'' where
  keeps service ip hget := h'.keeps service ip (h.keeps service ip hget)
  given service ip hget := by
    cases h'.given service ip hget with
    | inr hlater => exact .inr (List.mem_append_right rows hlater)
    | inl hbefore => exact (h.given service ip hbefore).imp_right (List.mem_append_left rows')
  separate hsep := h'.separate (h.separate hsep)
  stores kv hkv := by
    cases List.mem_append.mp hkv with
    | inl hfirst => exact h'.keeps kv.1 kv.2 (h.stores kv hfirst)
    | inr hlater => exact h'.stores kv hlater

/-- A row that is there already. -/
theorem known (hget : d.get? service = some ip) : Added [(service, ip)] d d where
  keeps _ _ hget := hget
  given _ _ hget := .inl hget
  separate hsep := hsep
  stores kv hkv := by rw [List.mem_singleton.mp hkv, hget]

/-- A new service with an address that no other has. -/
theorem fresh (hnew : d.get? service = none) (hfree : ip ∉ d.rows.map Prod.snd) :
    Added [(service, ip)] d (d.set service ip) where
  keeps k a hk := by
    have hne : service ≠ k := by
      rintro rfl
      rw [hnew] at hk
      contradiction
    rw [Dict.get?_set, if_neg hne, hk]
  given k a hk := by
    rw [Dict.get?_set] at hk
    by_cases heq : service = k
    · rw [if_pos heq] at hk
      rw [← heq, ← Option.some.inj hk]
      exact .inr (List.mem_singleton_self _)
    · rw [if_neg heq] at hk
      exact .inl hk
  separate hsep := hsep.set hfree
  stores kv hkv := by
    rw [List.mem_singleton.mp hkv]
    exact Dict.get?_set_self

end Added

/-- A commit adds the rows of its table. -/
theorem addServiceAddresses_spec {π δ : Type} {s s' : Store π δ} {table : Dict String String}
    (h : s.addServiceAddresses table = some s') :
    Added table.rows s.serviceAddresses s'.serviceAddresses := by
  obtain ⟨d', hfold, rfl⟩ := Option.map_eq_some_iff.mp h
  dsimp only
  generalize table.rows = rows at hfold
  generalize s.serviceAddresses = d at hfold
  induction rows generalizing d with
  | nil =>
      obtain rfl := Option.some.inj hfold
      exact .refl d
  | cons kv rows ih =>
      obtain ⟨service, ip⟩ := kv
      obtain ⟨e, he, hfold⟩ := Option.bind_eq_some_iff.mp hfold
      cases hget : d.get? service with
      | some known =>
          simp only [hget] at he
          by_cases heq : known = ip
          · rw [if_pos heq] at he
            obtain rfl := Option.some.inj he
            exact (Added.known (heq ▸ hget)).trans (ih _ hfold)
          · rw [if_neg heq] at he
            contradiction
      | none =>
          simp only [hget] at he
          by_cases htaken : ip ∈ d.rows.map Prod.snd
          · rw [if_pos htaken] at he
            contradiction
          · rw [if_neg htaken] at he
            obtain rfl := Option.some.inj he
            exact (Added.fresh hget htaken).trans (ih _ hfold)

/-- What committing the table of a preview does. -/
structure CommitsTable {π δ : Type} (s : Store π δ) (table : Dict String String) : Prop where
  /-- A commit that goes through stores every row. -/
  stores : ∀ s', s.addServiceAddresses table = some s' → ∀ service ip,
    table.get? service = some ip → s'.serviceAddresses.get? service = some ip
  /-- It goes through if the table has what is stored. -/
  succeeds : (∀ service ip, s.serviceAddresses.get? service = some ip →
    table.get? service = some ip) → ∃ s', s.addServiceAddresses table = some s'

theorem commitsTable {π δ : Type} (s : Store π δ) {table : Dict String String}
    (hsep : Separate table) : CommitsTable s table := by
  refine ⟨fun s' h service ip hget => ?_, fun hhas => ?_⟩
  · exact (addServiceAddresses_spec h).stores (service, ip) (Dict.get?_eq_some.mp hget)
  · have hrows : ∀ kv ∈ table.rows, table.get? kv.1 = some kv.2 := fun kv hkv =>
      Dict.get?_eq_some.mpr hkv
    unfold Store.addServiceAddresses
    rw [← Option.isSome_iff_exists, Option.isSome_map]
    generalize table.rows = rows at hrows
    generalize s.serviceAddresses = d at hhas
    induction rows generalizing d with
    | nil => rfl
    | cons kv rows ih =>
        obtain ⟨service, ip⟩ := kv
        have hrow : table.get? service = some ip := hrows (service, ip) List.mem_cons_self
        have hrest : ∀ kv ∈ rows, table.get? kv.1 = some kv.2 :=
          fun kv hkv => hrows kv (List.mem_cons_of_mem _ hkv)
        rw [List.foldlM_cons]
        cases hget : d.get? service with
        | some known =>
            have hsame : known = ip := Option.some.inj ((hhas service known hget).symm.trans hrow)
            simp only [hget, hsame, if_true, Option.bind_eq_bind, Option.bind_some]
            exact ih hrest d hhas
        | none =>
            have hfree : ip ∉ d.rows.map Prod.snd := by
              intro hin
              obtain ⟨kv, hkv, rfl⟩ := List.mem_map.mp hin
              have hstored : d.get? kv.1 = some kv.2 := Dict.get?_eq_some.mpr hkv
              have hsame := hsep _ _ _ (hhas _ _ hstored) hrow
              rw [hsame, hget] at hstored
              contradiction
            simp only [hget, hfree, if_false, Option.bind_eq_bind, Option.bind_some]
            refine ih hrest _ fun k a hk => ?_
            rw [Dict.get?_set] at hk
            by_cases heq : service = k
            · rw [if_pos heq] at hk
              rw [← heq, ← Option.some.inj hk]
              exact hrow
            · rw [if_neg heq] at hk
              exact hhas k a hk

/-- The stored table, and the tables of the previews so far. -/
structure AddressBook (π δ : Type) where
  store : Store π δ
  previews : List (Dict String String)

/-- A preview over the stored table or over the table of an earlier preview, and the commit
of a preview's table. -/
inductive AddressOp where
  | preview (services : List String)
  | extend (i : Nat) (services : List String)
  | commit (i : Nat)

variable {π δ : Type}

namespace AddressBook

/-- The stored table. -/
def table (b : AddressBook π δ) : Dict String String := b.store.serviceAddresses

/-- Remember the table of a preview, if there is one. -/
def note (b : AddressBook π δ) (t : Except AddressError (Dict String String)) : AddressBook π δ :=
  match t with
  | .ok t => { b with previews := b.previews ++ [t] }
  | .error _ => b

/-- Store the table of a preview, if no row and no address of it is in the way. -/
def write (b : AddressBook π δ) (t : Dict String String) : AddressBook π δ :=
  { b with store := (b.store.addServiceAddresses t).getD b.store }

/-- A preview or a commit; one that fails changes nothing. -/
def step (net : Subnet) (b : AddressBook π δ) : AddressOp → AddressBook π δ
  | .preview services => b.note (allocate net b.table services)
  | .extend i services =>
      match b.previews[i]? with
      | none => b
      | some t => b.note (allocate net t services)
  | .commit i =>
      match b.previews[i]? with
      | none => b
      | some t => b.write t

/-- Before the first allocation. -/
def fresh (s : Store π δ) : AddressBook π δ := ⟨{ s with serviceAddresses := ∅ }, []⟩

/-- Every table, stored or previewed, is a stable one. -/
def Inv (net : Subnet) (b : AddressBook π δ) : Prop :=
  ∀ t ∈ b.table :: b.previews, StableTable net t

variable {net : Subnet} {b : AddressBook π δ}

theorem Inv.note (h : Inv net b) {t : Dict String String} (ht : StableTable net t)
    (services : List String) : Inv net (b.note (allocate net t services)) := by
  cases halloc : allocate net t services with
  | error e => exact h
  | ok t' =>
      intro u hu
      have hcases : u ∈ b.table :: b.previews ∨ u = t' := by
        have hin : u ∈ b.table :: (b.previews ++ [t']) := hu
        simpa [or_assoc] using hin
      cases hcases with
      | inl hold => exact h u hold
      | inr hnew => exact hnew ▸ ht.allocate halloc

/-- What a commit leaves in the stored table. -/
theorem table_write (b : AddressBook π δ) (t : Dict String String) :
    (∀ service ip, b.table.get? service = some ip → (b.write t).table.get? service = some ip) ∧
    (∀ service ip, (b.write t).table.get? service = some ip →
      b.table.get? service = some ip ∨ t.get? service = some ip) ∧
    (Separate b.table → Separate (b.write t).table) := by
  unfold write table
  cases hadd : b.store.addServiceAddresses t with
  | none => exact ⟨fun _ _ hget => hget, fun _ _ hget => .inl hget, fun hsep => hsep⟩
  | some s' =>
      have hadded := addServiceAddresses_spec hadd
      refine ⟨hadded.keeps, fun service ip hget => ?_, hadded.separate⟩
      exact (hadded.given service ip hget).imp_right Dict.get?_eq_some.mpr

theorem Inv.step (h : Inv net b) (op : AddressOp) : Inv net (b.step net op) := by
  cases op with
  | preview services => exact h.note (h _ List.mem_cons_self) services
  | extend i services =>
      dsimp only [AddressBook.step]
      cases hi : b.previews[i]? with
      | none => exact h
      | some t => exact h.note (h t (List.mem_cons_of_mem _ (List.mem_of_getElem? hi))) services
  | commit i =>
      dsimp only [AddressBook.step]
      cases hi : b.previews[i]? with
      | none => exact h
      | some t =>
          obtain ⟨-, hfrom, hsep⟩ := table_write b t
          have hstored := h _ List.mem_cons_self
          have htable := h t (List.mem_cons_of_mem _ (List.mem_of_getElem? hi))
          intro u hu
          cases List.mem_cons.mp hu with
          | inr hpreview => exact h u (List.mem_cons_of_mem _ hpreview)
          | inl hnew =>
              rw [hnew]
              refine ⟨hsep hstored.separate, fun service ip hget => ?_⟩
              cases hfrom service ip hget with
              | inl hold => exact hstored.usable service ip hold
              | inr hadded => exact htable.usable service ip hadded

theorem table_note (t : Except AddressError (Dict String String)) : (b.note t).table = b.table := by
  cases t <;> rfl

/-- A stored address stays. -/
theorem keeps_step (op : AddressOp) {service ip : String} (h : b.table.get? service = some ip) :
    (b.step net op).table.get? service = some ip := by
  cases op with
  | preview services =>
      dsimp only [step]
      rwa [table_note]
  | extend i services =>
      dsimp only [step]
      cases hi : b.previews[i]? with
      | none => exact h
      | some t =>
          dsimp only
          rwa [table_note]
  | commit i =>
      dsimp only [step]
      cases hi : b.previews[i]? with
      | none => exact h
      | some t => exact (table_write b t).1 service ip h

theorem keeps_run (ops : List AddressOp) {service ip : String}
    (h : b.table.get? service = some ip) :
    (run (AddressBook.step net) b ops).table.get? service = some ip := by
  induction ops generalizing b with
  | nil => exact h
  | cons op ops ih => exact ih (keeps_step op h)

theorem inv_run (h : Inv net b) (ops : List AddressOp) :
    Inv net (run (AddressBook.step net) b ops) := by
  induction ops generalizing b with
  | nil => exact h
  | cons op ops ih => exact ih (h.step op)

theorem inv_fresh (s : Store π δ) : Inv net (fresh s) := by
  intro t ht
  obtain rfl : t = ∅ := List.mem_singleton.mp ht
  exact ⟨separate_empty, fun service ip hget => by simp at hget⟩

end AddressBook

/-- In every run of previews and commits, the stored table is one address per service, all
usable and never changed; every allocation over a table of the run serves as many new
services as there are free addresses, in whatever order they are given; and a commit of a
preview stores its rows. -/
theorem serviceAddresses_stable (net : Subnet) (s : Store π δ) (ops : List AddressOp) :
    let book := run (AddressBook.step net) (AddressBook.fresh s) ops
    StableTable net book.table ∧
      (∀ more service ip, book.table.get? service = some ip →
        (run (AddressBook.step net) book more).table.get? service = some ip) ∧
      (∀ table ∈ book.table :: book.previews, ∀ services, AllocatesFrom net table services) ∧
      ∀ table ∈ book.previews, CommitsTable book.store table := by
  intro book
  have hinv : AddressBook.Inv net book := AddressBook.inv_run (AddressBook.inv_fresh s) ops
  exact ⟨hinv _ List.mem_cons_self, fun more service ip hget => AddressBook.keeps_run more hget,
    fun table htable services => allocatesFrom (hinv table htable).texts services,
    fun table htable => commitsTable _ (hinv table (List.mem_cons_of_mem _ htable)).separate⟩

end InferStack
