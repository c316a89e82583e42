import Notbit.Store.Saves

/-!
# AddrList — the file of the known addresses (`ntb-store.c`, `ntb-netaddress.c`)

A line has three numbers and an address, whose host stands in brackets where it has colons of its
own.  What `inet_ntop` and `inet_pton` do is a parameter.
-/

open Bytes Digits Stdio Notbit.Proto

namespace Notbit.Store

/-! ## 1. Reading -/

/-- What `strtoul` or `strtoull` returns: the number, whether `errno` is set, and the rest of the
text. -/
structure Strtoull where
  value : Nat
  errno : Bool
  tail : List UInt8
  deriving DecidableEq, Repr

/-- `strtoull` in base ten.  A negative number is reduced to 64 bits. -/
def strtoull (text : List UInt8) : Strtoull :=
  let text' := text.dropWhile isSpace
  let negative := text'.head? = some 45
  let body := if negative ∨ text'.head? = some 43 then text'.tail else text'
  let digits := body.takeWhile isDigit
  let tail := body.dropWhile isDigit
  let magnitude := value 10 (digits.map fun ch => ch.toNat - 48)
  if digits = [] then { value := 0, errno := false, tail := text }
  else if 2 ^ 64 ≤ magnitude then { value := 2 ^ 64 - 1, errno := true, tail }
  else
    { value := if negative then (2 ^ 64 - magnitude) % 2 ^ 64 else magnitude
      errno := false, tail }

/-- `strtoul` for an `unsigned long` of 64 bits. -/
def strtoul (text : List UInt8) : Strtoull := strtoull text

/-- `NTB_PROTO_DEFAULT_PORT` -/
def defaultPort : Nat := 8444

/-- `ipv4_magic` -/
def ipv4Magic : List UInt8 := [0, 0, 0, 0, 0, 0, 0, 0, 0, 0, 0xff, 0xff]

section Reading

variable (inetPton : Nat → List UInt8 → Option (List UInt8))

/-- The end of `ntb_netaddress_from_string`: the port behind the host. -/
def parsePort (host addrEnd : List UInt8) : Option Netaddress :=
  match addrEnd with
  | [] => some { host, port := defaultPort }
  | ch :: text =>
    if ch = 58 then
      let port := strtoul text
      if port.errno ∨ port.value > 0xffff ∨ port.tail = text ∨ port.tail ≠ [] then none
      else some { host, port := port.value }
    else none

/-- `ntb_netaddress_from_string`; `inetPton` is `inet_pton` for a host of 4 or 16 bytes.  Behind an
empty string the search for a colon starts too far, but what is passed to `inet_pton` is empty. -/
def netaddressFromString (str : List UInt8) : Option Netaddress :=
  if str.head? = some 91 then
    let text := str.tail
    if 93 ∈ text then
      match inetPton 16 (text.takeWhile (· ≠ 93)) with
      | none => none
      | some host => parsePort host (text.dropWhile (· ≠ 93)).tail
    else none
  else
    match inetPton 4 (str.take 1 ++ (str.drop 1).takeWhile (· ≠ 58)) with
    | none => none
    | some host => parsePort (ipv4Magic ++ host) ((str.drop 1).dropWhile (· ≠ 58))

/-- `process_addr_line`: the address that is reported for a line. -/
def processAddrLine (line : List UInt8) : Option StoreAddr :=
  let line := cString line
  let timestamp := strtoll line
  if timestamp.tail = line ∨ timestamp.tail.head? ≠ some 44 then none
  else
    let line := timestamp.tail.tail
    let stream := strtoul line
    if stream.tail = line ∨ stream.tail.head? ≠ some 44 then none
    else
      let line := stream.tail.tail
      let services := strtoull line
      if services.tail = line ∨ services.tail.head? ≠ some 44 then none
      else
        let line := services.tail.tail
        let line := if line.getLast? = some newline then line.dropLast else line
        match netaddressFromString inetPton line with
        | none => none
        | some address => some {
            timestamp := CInt64.ofInt timestamp.value
            stream := UInt32.ofNat stream.value
            services := UInt64.ofNat services.value
            address }

/-- `ntb_store_for_each_addr`: the addresses that are reported, with a buffer of 1024 characters for
a line. -/
def forEachAddr (paths : Paths) (files : Files) : List StoreAddr :=
  match files (paths.directory ++ ascii "addr-list.txt") with
  | none => []
  | some file => (readLines 1023 file).filterMap (processAddrLine inetPton)

end Reading

/-! ## 2. Numbers -/

theorem strtoull_printUnsigned_append {n : Nat} (hn : n < 2 ^ 64) {rest : List UInt8}
    (hrest : ∀ ch ∈ rest.head?, isDigit ch = false) :
    strtoull (printUnsigned n ++ rest) = { value := n, errno := false, tail := rest } := by
  obtain ⟨htake, hdrop⟩ := takeWhile_printUnsigned_append n hrest
  obtain ⟨ch, digits, hcons⟩ := List.exists_cons_of_ne_nil (printUnsigned_ne_nil n)
  obtain ⟨hspace, hminus, hplus, -⟩ :=
    digit_ne (isDigit_of_mem (n := n) (hcons ▸ List.mem_cons_self))
  have hskip : (printUnsigned n ++ rest).dropWhile isSpace = printUnsigned n ++ rest := by
    rw [hcons, List.cons_append, List.dropWhile_cons, hspace]
    rfl
  have hhead : (printUnsigned n ++ rest).head? = some ch := by
    rw [hcons, List.cons_append, List.head?_cons]
  have hvalue := value_printUnsigned n
  have hnil := printUnsigned_ne_nil n
  unfold strtoull
  simp only [hskip, hhead, Option.some.injEq, hminus, hplus, or_self, if_false, htake, hdrop, hvalue,
    hnil]
  rw [if_neg (by omega)]

theorem printUnsigned_plain {n : Nat} : ∀ ch ∈ printUnsigned n, ch ≠ newline ∧ ch ≠ 0 := by
  intro ch hch
  obtain ⟨-, -, -, hnewline, hzero, -⟩ := digit_ne (isDigit_of_mem hch)
  exact ⟨hnewline, hzero⟩

theorem printSigned_plain {z : Int} : ∀ ch ∈ printSigned z, ch ≠ newline ∧ ch ≠ 0 := by
  unfold printSigned
  split
  · rw [List.forall_mem_cons]
    exact ⟨by decide, printUnsigned_plain⟩
  · exact printUnsigned_plain

theorem length_printUnsigned_le {n k : Nat} (hk : 0 < k) (hn : n < 10 ^ k) :
    (printUnsigned n).length ≤ k := by
  rw [printUnsigned, List.length_map]
  exact length_numeral_le (by decide) hk hn

theorem length_printSigned_le {z : Int} (hlower : -2 ^ 63 ≤ z) (hupper : z < 2 ^ 63) :
    (printSigned z).length ≤ 20 := by
  have hdigits : (printUnsigned z.natAbs).length ≤ 19 :=
    length_printUnsigned_le (by decide) (by omega)
  unfold printSigned
  split
  · rw [List.length_cons]
    omega
  · omega

/-! ## 3. Addresses -/

/-- What is documented of `inet_ntop` and `inet_pton`: a host is written with digits and dots, or with
hexadecimal digits, colons and dots, in at most 45 characters, and what is written is read back. -/
structure InetLawful (inetNtop : List UInt8 → List UInt8)
    (inetPton : Nat → List UInt8 → Option (List UInt8)) : Prop where
  ipv4 : ∀ host, host.length = 4 → inetPton 4 (inetNtop host) = some host
  ipv6 : ∀ host, host.length = 16 → inetPton 16 (inetNtop host) = some host
  ipv4_chars : ∀ host, host.length = 4 → ∀ ch ∈ inetNtop host, isDigit ch ∨ ch = 46
  ipv6_chars : ∀ host, host.length = 16 → ∀ ch ∈ inetNtop host, isHexDigit ch ∨ ch = 46 ∨ ch = 58
  ipv4_ne_nil : ∀ host, host.length = 4 → inetNtop host ≠ []
  length_le : ∀ host, host.length = 4 ∨ host.length = 16 → (inetNtop host).length ≤ 45

/-- A value of the C type: a host has 16 bytes and a port is a `uint16_t`. -/
structure IsNetaddress (address : Netaddress) : Prop where
  host : address.host.length = 16
  port : address.port < 2 ^ 16

section Roundtrip

variable {inetNtop : List UInt8 → List UInt8} {inetPton : Nat → List UInt8 → Option (List UInt8)}
  {address : Netaddress}

-- A hexadecimal digit is none of the other characters in an address.
theorem hexDigit_ne_marks {ch : UInt8} (h : isHexDigit ch = true) :
    ch ≠ newline ∧ ch ≠ 0 ∧ ch ≠ 93 := by
  refine ⟨?_, ?_, ?_⟩ <;>
  · rintro rfl
    exact absurd h (by decide)

theorem parsePort_printUnsigned {host : List UInt8} {port : Nat} (hport : port < 2 ^ 16) :
    parsePort host (58 :: printUnsigned port) = some { host, port } := by
  have hread : strtoull (printUnsigned port ++ []) = _ :=
    strtoull_printUnsigned_append (by omega) nofun
  rw [List.append_nil] at hread
  have hnil : [] ≠ printUnsigned port := (printUnsigned_ne_nil port).symm
  rw [parsePort, if_pos rfl]
  simp only [strtoul, hread, Bool.false_eq_true, hnil, ne_eq, not_true_eq_false, or_false, false_or]
  rw [if_neg (by omega)]

theorem fromString_brackets {name host : List UInt8} {port : Nat} (hname : ∀ ch ∈ name, ch ≠ 93)
    (hpton : inetPton 16 name = some host) (hport : port < 2 ^ 16) :
    netaddressFromString inetPton (91 :: (name ++ 93 :: 58 :: printUnsigned port)) =
      some { host, port } := by
  have hno : ∀ ch ∈ name, decide (ch ≠ 93) = true := fun ch hch => decide_eq_true (hname ch hch)
  have htake : (name ++ 93 :: 58 :: printUnsigned port).takeWhile (· ≠ 93) = name := by
    rw [List.takeWhile_append_of_pos hno, List.takeWhile_cons_of_neg (by decide), List.append_nil]
  have hdrop : (name ++ 93 :: 58 :: printUnsigned port).dropWhile (· ≠ 93) =
      93 :: 58 :: printUnsigned port := by
    rw [List.dropWhile_append_of_pos hno, List.dropWhile_cons_of_neg (by decide)]
  rw [netaddressFromString, List.head?_cons, if_pos rfl, List.tail_cons]
  dsimp only
  rw [if_pos (by simp), htake, hdrop, hpton]
  exact parsePort_printUnsigned hport

theorem fromString_plain {ch : UInt8} {name host : List UInt8} {port : Nat} (hfirst : ch ≠ 91)
    (hname : ∀ c ∈ name, c ≠ 58) (hpton : inetPton 4 (ch :: name) = some host)
    (hport : port < 2 ^ 16) :
    netaddressFromString inetPton (ch :: (name ++ 58 :: printUnsigned port)) =
      some { host := ipv4Magic ++ host, port } := by
  have hno : ∀ c ∈ name, decide (c ≠ 58) = true := fun c hc => decide_eq_true (hname c hc)
  have htake : (name ++ 58 :: printUnsigned port).takeWhile (· ≠ 58) = name := by
    rw [List.takeWhile_append_of_pos hno, List.takeWhile_cons_of_neg (by decide), List.append_nil]
  have hdrop : (name ++ 58 :: printUnsigned port).dropWhile (· ≠ 58) =
      58 :: printUnsigned port := by
    rw [List.dropWhile_append_of_pos hno, List.dropWhile_cons_of_neg (by decide)]
  rw [netaddressFromString, List.head?_cons, if_neg (by simpa using hfirst), List.take_succ_cons,
    List.take_zero, List.drop_succ_cons, List.drop_zero, htake, hdrop, List.singleton_append, hpton]
  exact parsePort_printUnsigned hport

/-- An address in its two forms is the text of a line without the characters that end it. -/
theorem netaddressFromString_toString (h : InetLawful inetNtop inetPton)
    (haddress : IsNetaddress address) :
    netaddressFromString inetPton (netaddressToString inetNtop address) = some address := by
  obtain ⟨hhost, hport⟩ := haddress
  have hopen : ascii "[" = [91] := by decide
  have hclose : ascii "]" = [93] := by decide
  have hcolon : ascii ":" = [58] := by decide
  have hstring : netaddressToString inetNtop address =
      (if address.host.take 12 ≠ ipv4Magic then
        ascii "[" ++ inetNtop address.host ++ ascii "]"
      else inetNtop (address.host.drop 12)) ++ ascii ":" ++ printUnsigned address.port := rfl
  rw [hstring]
  by_cases hmagic : address.host.take 12 = ipv4Magic
  · have hlength : (address.host.drop 12).length = 4 := by rw [List.length_drop, hhost]
    have hchars := h.ipv4_chars _ hlength
    have hpton := h.ipv4 _ hlength
    have hsplit : ipv4Magic ++ address.host.drop 12 = address.host := by
      rw [← hmagic, List.take_append_drop]
    obtain ⟨ch, name, hname⟩ := List.exists_cons_of_ne_nil (h.ipv4_ne_nil _ hlength)
    rw [hname] at hchars hpton
    have hno : ∀ c : UInt8, isDigit c = false → c ≠ 46 → c ∉ ch :: name := by
      intro c hdigit hdot hc
      rcases hchars c hc with hyes | hyes
      · rw [hdigit] at hyes
        exact absurd hyes Bool.false_ne_true
      · exact hdot hyes
    have hfirst : ch ≠ 91 := fun hch => hno 91 rfl (by decide) (hch ▸ List.mem_cons_self)
    have hrest : ∀ c ∈ name, c ≠ 58 := fun c hc hcolon =>
      hno 58 rfl (by decide) (List.mem_cons_of_mem ch (hcolon ▸ hc))
    have hread := fromString_plain hfirst hrest hpton hport
    rw [hsplit] at hread
    rw [if_neg (not_not.mpr hmagic), hname, hcolon, List.append_assoc]
    exact hread
  · have hchars := h.ipv6_chars address.host hhost
    have hno : ∀ ch ∈ inetNtop address.host, ch ≠ 93 := by
      intro ch hch
      rcases hchars ch hch with hhex | rfl | rfl
      · exact (hexDigit_ne_marks hhex).2.2
      · decide
      · decide
    have hread := fromString_brackets hno (h.ipv6 address.host hhost) hport
    rw [if_pos hmagic, hopen, hclose, hcolon]
    simp only [List.append_assoc, List.cons_append, List.nil_append]
    exact hread

/-- The text of a line without its end. -/
def addrText (inetNtop : List UInt8 → List UInt8) (addr : StoreAddr) : List UInt8 :=
  printSigned addr.timestamp.val ++ 44 :: (printUnsigned addr.stream.toNat ++
    44 :: (printUnsigned addr.services.toNat ++ 44 :: netaddressToString inetNtop addr.address))

theorem addrLine_eq (inetNtop : List UInt8 → List UInt8) (addr : StoreAddr) :
    addrLine inetNtop addr = addrText inetNtop addr ++ [10] := by
  have hcomma : ascii "," = [44] := by decide
  have hnewline : ascii "\n" = [10] := by decide
  simp only [addrLine, addrText, hcomma, hnewline, List.append_assoc, List.cons_append,
    List.nil_append]

theorem inetNtop_plain (h : InetLawful inetNtop inetPton) {host : List UInt8}
    (hhost : host.length = 4 ∨ host.length = 16) :
    ∀ ch ∈ inetNtop host, ch ≠ newline ∧ ch ≠ 0 := by
  intro ch hch
  have hdot : (46 : UInt8) ≠ newline ∧ (46 : UInt8) ≠ 0 := by decide
  rcases hhost with hhost | hhost
  · rcases h.ipv4_chars host hhost ch hch with hdigit | rfl
    · obtain ⟨-, -, -, hnewline, hzero, -⟩ := digit_ne hdigit
      exact ⟨hnewline, hzero⟩
    · exact hdot
  · rcases h.ipv6_chars host hhost ch hch with hhex | rfl | rfl
    · exact ⟨(hexDigit_ne_marks hhex).1, (hexDigit_ne_marks hhex).2.1⟩
    · exact hdot
    · decide

-- The host of an address as it is printed: its characters, and how many there are.
theorem netaddressToString_fits (h : InetLawful inetNtop inetPton) (haddress : IsNetaddress address) :
    (∀ ch ∈ netaddressToString inetNtop address, ch ≠ newline ∧ ch ≠ 0) ∧
      (netaddressToString inetNtop address).length ≤ 53 := by
  obtain ⟨hhost, hport⟩ := haddress
  have hdrop : (address.host.drop 12).length = 4 := by rw [List.length_drop, hhost]
  have hsmall : (printUnsigned address.port).length ≤ 5 :=
    length_printUnsigned_le (by decide) (by omega)
  have hmarks : ∀ mark ∈ [ascii "[", ascii "]", ascii ":"],
      mark.length = 1 ∧ ∀ ch ∈ mark, ch ≠ newline ∧ ch ≠ 0 := by
    decide +kernel
  simp only [List.forall_mem_cons] at hmarks
  obtain ⟨⟨hopenLength, hopen⟩, ⟨hcloseLength, hclose⟩, ⟨hcolonLength, hcolon⟩, -⟩ := hmarks
  unfold netaddressToString
  dsimp only
  constructor
  · split_ifs
    · simp only [List.forall_mem_append]
      exact ⟨⟨⟨⟨hopen, inetNtop_plain h (.inr hhost)⟩, hclose⟩, hcolon⟩, printUnsigned_plain⟩
    · simp only [List.forall_mem_append]
      exact ⟨⟨inetNtop_plain h (.inl hdrop), hcolon⟩, printUnsigned_plain⟩
  · have hlong := h.length_le address.host (.inr hhost)
    have hshort := h.length_le (address.host.drop 12) (.inl hdrop)
    split_ifs <;> simp only [List.length_append, hopenLength, hcloseLength, hcolonLength] <;> omega

theorem addrText_fits (h : InetLawful inetNtop inetPton) {addr : StoreAddr}
    (haddr : IsNetaddress addr.address) :
    (∀ ch ∈ addrText inetNtop addr, ch ≠ newline ∧ ch ≠ 0) ∧
      (addrText inetNtop addr).length < 1023 := by
  obtain ⟨hplain, hlength⟩ := netaddressToString_fits h haddr
  have hcomma : (44 : UInt8) ≠ newline ∧ (44 : UInt8) ≠ 0 := by decide
  have htimestamp := length_printSigned_le addr.timestamp.lower addr.timestamp.upper
  have hstream : (printUnsigned addr.stream.toNat).length ≤ 10 := by
    have hlt := addr.stream.toNat_lt
    exact length_printUnsigned_le (by decide) (by omega)
  have hservices : (printUnsigned addr.services.toNat).length ≤ 20 := by
    have hlt := addr.services.toNat_lt
    exact length_printUnsigned_le (by decide) (by omega)
  unfold addrText
  constructor
  · simp only [List.forall_mem_append, List.forall_mem_cons]
    exact ⟨printSigned_plain, hcomma, printUnsigned_plain, hcomma, printUnsigned_plain, hcomma,
      hplain⟩
  · simp only [List.length_append, List.length_cons]
    omega

theorem processAddrLine_addrLine (h : InetLawful inetNtop inetPton) {addr : StoreAddr}
    (haddr : IsNetaddress addr.address) :
    processAddrLine inetPton (addrLine inetNtop addr) = some addr := by
  have hplain := (addrText_fits h haddr).1
  have hcomma : ∀ rest : List UInt8, ∀ ch ∈ (44 :: rest).head?, isDigit ch = false := by
    rintro rest ch hch
    obtain rfl := Option.some.inj hch
    rfl
  have hline : cString (addrLine inetNtop addr) = addrText inetNtop addr ++ [10] := by
    rw [addrLine_eq]
    apply KeyValueData.cString_of_nonzero
    rw [List.forall_mem_append]
    exact ⟨fun ch hch => (hplain ch hch).2, by simp⟩
  have hmoved : ∀ (printed rest : List UInt8), printed ≠ [] → rest ≠ printed ++ rest := by
    intro printed rest hne heq
    exact hne (List.self_eq_append_left.mp heq)
  have htimestamp := strtoll_printSigned_append addr.timestamp.lower addr.timestamp.upper
    (hcomma (printUnsigned addr.stream.toNat ++ 44 :: (printUnsigned addr.services.toNat ++
      44 :: (netaddressToString inetNtop addr.address ++ [10]))))
  have hstream := strtoull_printUnsigned_append (n := addr.stream.toNat)
    (addr.stream.toNat_lt.trans (by decide)) (hcomma (printUnsigned addr.services.toNat ++
      44 :: (netaddressToString inetNtop addr.address ++ [10])))
  have hservices := strtoull_printUnsigned_append (n := addr.services.toNat)
    addr.services.toNat_lt (hcomma (netaddressToString inetNtop addr.address ++ [10]))
  have hread := netaddressFromString_toString h haddr
  unfold processAddrLine
  rw [hline]
  simp only [addrText, List.append_assoc, List.cons_append, htimestamp, hmoved _ _
    (printSigned_ne_nil addr.timestamp.val), List.head?_cons, ne_eq, not_true_eq_false, or_self,
    if_false, List.tail_cons, strtoul, hstream, hmoved _ _ (printUnsigned_ne_nil addr.stream.toNat),
    hservices, hmoved _ _ (printUnsigned_ne_nil addr.services.toNat)]
  have hend : (netaddressToString inetNtop addr.address ++ [10]).getLast? = some newline :=
    List.getLast?_concat
  rw [if_pos hend, List.dropLast_concat, hread]
  simp only [CInt64.ofInt_val, UInt32.ofNat_toNat, UInt64.ofNat_toNat]

/-- Loading the list of addresses that `handle_save_addr_list` has saved reports the addresses of the
list, in order. -/
theorem forEachAddr_saved (h : InetLawful inetNtop inetPton) (paths : Paths) (o : Outcomes)
    (addrs : List StoreAddr) (haddrs : ∀ addr ∈ addrs, IsNetaddress addr.address) (files : Files)
    (hsaved : o.fopen ∧ o.fclose ∧ o.rename)
    (hwrites : ¬ Lost o 0 (addrs.map (addrLine inetNtop))) :
    forEachAddr inetPton paths (handleSaveAddrList inetNtop paths o addrs files) = addrs := by
  have hreplaces := saveUnchecked_replaces o (paths.directory ++ ascii "addr-list.txt")
    (addrs.map (addrLine inetNtop)) files
  have hpath : paths.directory ++ ascii "addr-list.txt.tmp" =
      paths.directory ++ ascii "addr-list.txt" ++ ascii ".tmp" := by
    rw [List.append_assoc]
    congr 1
  have hfile : (addrs.map (addrLine inetNtop)).flatten =
      (addrs.map (addrText inetNtop)).flatMap (· ++ [10]) := by
    rw [List.flatMap_def, List.map_map]
    congr 1
    exact List.map_congr_left fun addr _ => addrLine_eq inetNtop addr
  have hfits : ∀ text ∈ addrs.map (addrText inetNtop),
      (∀ ch ∈ text, ch ≠ 10) ∧ text.length < 1023 := by
    intro text htext
    obtain ⟨addr, haddr, rfl⟩ := List.mem_map.mp htext
    obtain ⟨hplain, hlength⟩ := addrText_fits h (haddrs addr haddr)
    exact ⟨fun ch hch => (hplain ch hch).1, hlength⟩
  have hlines := readLines_flatMap hfits
  unfold forEachAddr handleSaveAddrList
  rw [hpath, hreplaces.new hsaved, kept_of_not_lost hwrites, hfile]
  dsimp only
  rw [hlines, List.map_map, List.filterMap_map]
  refine (List.filterMap_congr fun addr haddr => ?_).trans List.filterMap_some
  show processAddrLine inetPton (addrText inetNtop addr ++ [10]) = some addr
  rw [← addrLine_eq]
  exact processAddrLine_addrLine h (haddrs addr haddr)

end Roundtrip

/-! ## 4. Hosts without abbreviations -/

/-- Numerals with a separator between them. -/
def joined (b : Nat) (sep : UInt8) (numbers : List Nat) : List UInt8 :=
  [sep].intercalate (numbers.map fun n => (numeral b n).map hexDigit)

/-- The numbers in a text with a separator. -/
def parted (b : Nat) (sep : UInt8) (text : List UInt8) : List Nat :=
  (text.splitOn sep).map fun part => value b (part.map hexDigitValue)

/-- The groups of 16 bits of a host. -/
def groups : List UInt8 → List Nat
  | hi :: lo :: host => (hi.toNat * 256 + lo.toNat) :: groups host
  | _ => []

/-- `inet_ntop` for hosts in which no zeroes are left out. -/
def plainNtop (host : List UInt8) : List UInt8 :=
  if host.length = 4 then joined 10 46 (host.map UInt8.toNat) else joined 16 58 (groups host)

/-- `inet_pton` for such hosts. -/
def plainPton (size : Nat) (text : List UInt8) : Option (List UInt8) :=
  let host := if size = 4 then (parted 10 46 text).map UInt8.ofNat
    else (parted 16 58 text).flatMap fun n => [UInt8.ofNat (n / 256), UInt8.ofNat (n % 256)]
  if host.length = size ∧ plainNtop host = text then some host else none

section Plain

variable {b k : Nat} {sep : UInt8} {numbers : List Nat}

theorem hexDigit_lt {d : Nat} (hd : d < 16) :
    isHexDigit (hexDigit d) = true ∧ hexDigitValue (hexDigit d) = d ∧
      (d < 10 → isDigit (hexDigit d) = true) := by
  have hall : ∀ d < 16, isHexDigit (hexDigit d) = true ∧ hexDigitValue (hexDigit d) = d ∧
      (d < 10 → isDigit (hexDigit d) = true) := by
    decide
  exact hall d hd

theorem mem_intercalate {ch : UInt8} {parts : List (List UInt8)}
    (h : ch ∈ [sep].intercalate parts) : ch = sep ∨ ∃ part ∈ parts, ch ∈ part := by
  induction parts with
  | nil => exact absurd h List.not_mem_nil
  | cons part parts ih =>
    cases parts with
    | nil =>
      rw [List.intercalate_singleton] at h
      exact .inr ⟨part, List.mem_cons_self, h⟩
    | cons next parts =>
      rw [List.intercalate_cons_cons, List.mem_append, List.mem_append, List.mem_singleton] at h
      rcases h with (hpart | hsep) | hrest
      · exact .inr ⟨part, List.mem_cons_self, hpart⟩
      · exact .inl hsep
      · rcases ih hrest with hsep | ⟨other, hother, hch⟩
        · exact .inl hsep
        · exact .inr ⟨other, List.mem_cons_of_mem part hother, hch⟩

theorem length_intercalate_le {parts : List (List UInt8)}
    (h : ∀ part ∈ parts, part.length ≤ k) :
    ([sep].intercalate parts).length ≤ parts.length * (k + 1) := by
  induction parts with
  | nil => simp
  | cons part parts ih =>
    obtain ⟨hpart, hrest⟩ := List.forall_mem_cons.mp h
    have hle := ih hrest
    cases parts with
    | nil =>
      rw [List.intercalate_singleton, List.length_singleton]
      omega
    | cons next parts =>
      rw [List.intercalate_cons_cons, List.length_append, List.length_append, List.length_singleton,
        List.length_cons, Nat.succ_mul]
      omega

-- The characters of a numeral.
theorem mem_joined (hb : 1 < b) {ch : UInt8} (h : ch ∈ joined b sep numbers) :
    ch = sep ∨ ∃ d < b, ch = hexDigit d := by
  rcases mem_intercalate h with hsep | ⟨part, hpart, hch⟩
  · exact .inl hsep
  · obtain ⟨n, -, rfl⟩ := List.mem_map.mp hpart
    obtain ⟨d, hd, rfl⟩ := List.mem_map.mp hch
    exact .inr ⟨d, lt_of_mem_numeral hb hd, rfl⟩

theorem parted_joined (hb : 1 < b) (hb16 : b ≤ 16) (hsep : isHexDigit sep = false)
    (hne : numbers ≠ []) : parted b sep (joined b sep numbers) = numbers := by
  have hno : ∀ part ∈ numbers.map fun n => (numeral b n).map hexDigit, sep ∉ part := by
    intro part hpart hmem
    obtain ⟨n, -, rfl⟩ := List.mem_map.mp hpart
    obtain ⟨d, hd, rfl⟩ := List.mem_map.mp hmem
    have hdigit := (hexDigit_lt ((lt_of_mem_numeral hb hd).trans_le hb16)).1
    rw [hsep] at hdigit
    exact absurd hdigit Bool.false_ne_true
  unfold parted joined
  rw [List.splitOn_intercalate sep hno (by simpa using hne), List.map_map]
  conv_rhs => rw [← List.map_id numbers]
  apply List.map_congr_left
  intro n _
  have hvalues : ((numeral b n).map hexDigit).map hexDigitValue = numeral b n := by
    rw [List.map_map]
    conv_rhs => rw [← List.map_id (numeral b n)]
    apply List.map_congr_left
    intro d hd
    exact (hexDigit_lt ((lt_of_mem_numeral hb hd).trans_le hb16)).2.1
  show value b (((numeral b n).map hexDigit).map hexDigitValue) = n
  rw [hvalues, value_numeral]

theorem length_joined_le (hb : 1 < b) (hk : 0 < k) (h : ∀ n ∈ numbers, n < b ^ k) :
    (joined b sep numbers).length ≤ numbers.length * (k + 1) := by
  have hparts : ∀ part ∈ numbers.map fun n => (numeral b n).map hexDigit, part.length ≤ k := by
    intro part hpart
    obtain ⟨n, hn, rfl⟩ := List.mem_map.mp hpart
    rw [List.length_map]
    exact length_numeral_le hb hk (h n hn)
  have hle : (joined b sep numbers).length ≤ _ := length_intercalate_le hparts
  rw [List.length_map] at hle
  exact hle

theorem groups_spec {host : List UInt8} (h : 2 ∣ host.length) :
    (groups host).flatMap (fun n => [UInt8.ofNat (n / 256), UInt8.ofNat (n % 256)]) = host ∧
      2 * (groups host).length = host.length ∧ ∀ n ∈ groups host, n < 16 ^ 4 := by
  induction host using groups.induct with
  | case1 hi lo host ih =>
    rw [List.length_cons, List.length_cons] at h
    obtain ⟨hbytes, hlength, hlt⟩ := ih (by omega)
    have hhi := hi.toNat_lt
    have hlo := lo.toNat_lt
    have hdiv : (hi.toNat * 256 + lo.toNat) / 256 = hi.toNat := by omega
    have hmod : (hi.toNat * 256 + lo.toNat) % 256 = lo.toNat := by omega
    rw [groups, List.flatMap_cons, hbytes, hdiv, hmod, UInt8.ofNat_toNat, UInt8.ofNat_toNat,
      List.forall_mem_cons, List.length_cons, List.length_cons, List.length_cons]
    exact ⟨rfl, by omega, by omega, hlt⟩
  | case2 host hshort =>
    cases host with
    | nil => exact ⟨rfl, rfl, nofun⟩
    | cons a host =>
      cases host with
      | nil =>
        rw [List.length_singleton] at h
        omega
      | cons b host => exact absurd rfl (hshort a b host)

theorem map_ofNat_toNat (host : List UInt8) : (host.map UInt8.toNat).map UInt8.ofNat = host := by
  rw [List.map_map]
  conv_rhs => rw [← List.map_id host]
  exact List.map_congr_left fun b _ => UInt8.ofNat_toNat

theorem plain_lawful : InetLawful plainNtop plainPton where
  ipv4 host hhost := by
    have hne : host.map UInt8.toNat ≠ [] := by
      rw [ne_eq, List.map_eq_nil_iff]
      rintro rfl
      exact absurd hhost (by decide)
    have hparts : parted 10 46 (joined 10 46 (host.map UInt8.toNat)) = _ :=
      parted_joined (by decide) (by decide) (by decide) hne
    have htext : plainNtop host = joined 10 46 (host.map UInt8.toNat) := if_pos hhost
    unfold plainPton
    rw [if_pos rfl]
    dsimp only
    conv_lhs => rw [htext, hparts, map_ofNat_toNat]
    rw [if_pos ⟨hhost, htext⟩]
  ipv6 host hhost := by
    have heven : 2 ∣ host.length := by rw [hhost]; decide
    obtain ⟨hbytes, hlength, -⟩ := groups_spec heven
    have hne : groups host ≠ [] := by
      intro hnil
      rw [hnil, hhost] at hlength
      exact absurd hlength (by decide)
    have hparts : parted 16 58 (joined 16 58 (groups host)) = _ :=
      parted_joined (by decide) (by decide) (by decide) hne
    have htext : plainNtop host = joined 16 58 (groups host) := if_neg (by omega)
    unfold plainPton
    rw [if_neg (show ¬ (16 : Nat) = 4 by decide)]
    dsimp only
    conv_lhs => rw [htext, hparts, hbytes]
    rw [if_pos ⟨hhost, htext⟩]
  ipv4_chars host hhost ch hch := by
    rw [plainNtop, if_pos hhost] at hch
    rcases mem_joined (by decide) hch with hsep | ⟨d, hd, rfl⟩
    · exact .inr hsep
    · exact .inl ((hexDigit_lt (by omega)).2.2 hd)
  ipv6_chars host hhost ch hch := by
    rw [plainNtop, if_neg (by omega)] at hch
    rcases mem_joined (by decide) hch with hsep | ⟨d, hd, rfl⟩
    · exact .inr (.inr hsep)
    · exact .inl (hexDigit_lt hd).1
  ipv4_ne_nil host hhost := by
    have hne : host.map UInt8.toNat ≠ [] := by
      rw [ne_eq, List.map_eq_nil_iff]
      rintro rfl
      exact absurd hhost (by decide)
    have hparts : parted 10 46 (joined 10 46 (host.map UInt8.toNat)) = _ :=
      parted_joined (by decide) (by decide) (by decide) hne
    rw [plainNtop, if_pos hhost]
    intro hnil
    rw [hnil] at hparts
    have hfour := congrArg List.length hparts
    rw [List.length_map, hhost] at hfour
    exact absurd hfour (by decide)
  length_le host hhost := by
    rcases hhost with hhost | hhost
    · have hlt : ∀ n ∈ host.map UInt8.toNat, n < 10 ^ 3 := by
        intro n hn
        obtain ⟨b, -, rfl⟩ := List.mem_map.mp hn
        have hb := b.toNat_lt
        omega
      have hle : (joined 10 46 (host.map UInt8.toNat)).length ≤ _ :=
        length_joined_le (by decide) (by decide) hlt
      rw [List.length_map, hhost] at hle
      rw [plainNtop, if_pos hhost]
      omega
    · have heven : 2 ∣ host.length := by rw [hhost]; decide
      obtain ⟨-, hlength, hlt⟩ := groups_spec heven
      have hle : (joined 16 58 (groups host)).length ≤ _ :=
        length_joined_le (by decide) (by decide) hlt
      rw [plainNtop, if_neg (by omega)]
      omega

end Plain

/-- An address of each kind. -/
def sampleAddrs : List StoreAddr := [
  { timestamp := ⟨-1, by decide, by decide⟩, stream := 1, services := 18446744073709551615
    address :=
      { host := [0x20, 1, 0x0d, 0xb8, 0, 1, 0, 2, 0, 3, 0, 4, 0, 5, 0, 6], port := 8444 } },
  { timestamp := CInt64.may2014, stream := 4294967295, services := 1
    address := { host := [0, 0, 0, 0, 0, 0, 0, 0, 0, 0, 0xff, 0xff, 10, 0, 0, 1], port := 0 } }]

theorem forEachAddr_saved_sample :
    InetLawful plainNtop plainPton ∧
      ∃ (paths : Paths) (o : Outcomes), forEachAddr plainPton paths
        (handleSaveAddrList plainNtop paths o sampleAddrs fun _ => none) = sampleAddrs := by
  refine ⟨plain_lawful, { directory := [], maildir := [] }, {
    fopen := true, write := fun _ => true, fclose := true, flushed := 0, rename := true
    unlink := true }, forEachAddr_saved plain_lawful _ _ sampleAddrs ?_ _ ⟨rfl, rfl, rfl⟩ ?_⟩
  · simp only [sampleAddrs, List.forall_mem_cons]
    exact ⟨⟨rfl, by decide⟩, ⟨rfl, by decide⟩, by simp⟩
  · rintro ⟨i, bytes, -, -, hlost⟩
    exact absurd hlost.symm Bool.false_ne_true

end Notbit.Store
