import Circuitry.Proofs.Exactness
import Circuitry.Proofs.Reversal
import Circuitry.Proofs.RoundTrip
import Circuitry.Proofs.Tree

/-!
# Country codes on their way to numbers

A two-letter code is looked up twice: when it is read, to see whether the table knows it, and when
it is converted, for its number.  Halving finds what a scan of an ordered table finds
(`Country.search_eq_lookup`), so the codes that are read are those with a number
(`Value.ofJson_iso3166Alpha2`), and every raw value that denotes the number is read as a country
number in turn (`Value.ofJson_iso3166Numeric`).

From there the number goes on to integers.  Values with an edge from each to the next are what a
chain of links passes through (`Value.ofChain_walk`).  A country number has ten bits, so there is an
edge from it to every width and from every width to every other (`Country.isChain_widths`).
-/

namespace Circuitry

open Fallible

/-! ### Walks along edges -/

/-- The links from a node through other nodes, one after the other. -/
def Node.walk : Node → List Node → List Link
  | _, [] => []
  | source, target :: rest => ⟨source.name, target.name⟩ :: walk target rest

theorem Node.parse_name (node : Node) : Node.parse node.name = .ok node := by
  rw [Node.parse, Node.ofName?_name]

namespace Value

theorem Edge.follow {value result : Value} (h : Edge value result) :
    value.follow ⟨value.node.name, result.node.name⟩ = .ok result := by
  refine bind_eq_ok.mpr ⟨value.node, Node.parse_name _, ?_⟩
  refine bind_eq_ok.mpr ⟨result.node, Node.parse_name _, ?_⟩
  rw [if_pos rfl]
  exact h.convert

/-- **Values along edges are a run of the links between their nodes.** -/
theorem Run.of_edges {start : Value} {values : List Value} (h : (start :: values).IsChain Edge) :
    Run start (start.node.walk (values.map node)) values := by
  induction values generalizing start with
  | nil => exact .nil start
  | cons next rest ih =>
    obtain ⟨hedge, hrest⟩ := List.isChain_cons_cons.mp h
    exact .cons hedge.follow (ih hrest)

/-- **A chain along edges succeeds**, if its first node reads the raw value. -/
theorem ofChain_walk {raw : Json} {start next : Value} {rest : List Value}
    (hread : ofJson start.node raw = .ok start) (h : (start :: next :: rest).IsChain Edge) :
    ofChain raw (start.node.walk ((next :: rest).map node)) = .ok (rest.getLast?.getD next) :=
  ofChain_eq_ok.mpr ⟨_, _, start.node, start, next :: rest, rfl, Node.parse_name _, hread,
    .of_edges h, List.getLast?_cons⟩

end Value

/-! ### Scanning the table -/

namespace Country

/-- **Halving finds what a scan of an ordered table finds.** -/
theorem search_eq_lookup {table : Array (String × UInt16)} (hordered : Keyed.Ordered table.toList)
    (code : String) : search table code 0 table.size = table.toList.lookup code := by
  refine Option.ext fun number => ?_
  rw [search_size_eq_some_iff hordered, Keyed.lookup_eq_some_iff hordered, Array.mem_toList_iff]

theorem numeric?_eq_none_iff {code : String} :
    numeric? code = none ↔ ∀ entry ∈ codes, entry.1 ≠ code := by
  rw [numeric?, search_eq_lookup ordered_codes, List.lookup_eq_none_iff]
  simp only [Array.mem_toList_iff, bne_iff_ne, ne_comm]

theorem isNumeric_iff_numeric? {number : UInt16} :
    isNumeric number = true ↔ ∃ code, numeric? code = some number := by
  simp only [isNumeric_iff, numeric?_eq_some_iff]

end Country

/-! ### Reading codes and numbers -/

namespace Value

/-- **The codes that are read are those of the table.** -/
theorem ofJson_iso3166Alpha2 {raw : Json} {value : Value} :
    ofJson .iso3166Alpha2 raw = .ok value ↔
      ∃ code number, raw = .string code ∧ Country.numeric? code = some number ∧
        value = .countryCode code := by
  constructor
  · intro h
    obtain ⟨code, hcode, h⟩ := bind_eq_ok.mp (mapError_eq_ok.mp h)
    have hraw : raw = .string code := by
      cases raw with
      | string s => cases hcode; rfl
      | _ => cases hcode
    split at h
    · rename_i number hnumber
      exact ⟨code, number, hraw, hnumber, (pure_eq_ok.mp h).symm⟩
    · cases h
  · rintro ⟨code, number, rfl, hnumber, rfl⟩
    have hwell : (countryCode code).WellFormed :=
      ⟨number, Country.numeric?_eq_some_iff.mp hnumber⟩
    exact hwell.reads_back

/-- **A raw value is read as the number that it denotes, if that is one of a country.** -/
theorem ofJson_iso3166Numeric {raw : Json} {number : UInt16} :
    ofJson .iso3166Numeric raw = .ok (.countryNumber number) ↔
      Raw.natural? raw = some number.toNat ∧ Country.isNumeric number = true := by
  rw [ofJson, mapError_eq_ok]
  constructor
  · intro hread
    obtain ⟨n, hn, hread⟩ := bind_eq_ok.mp hread
    split at hread
    · rename_i hnumeric
      rw [Bool.and_eq_true, decide_eq_true_eq] at hnumeric
      have hword : (UInt16.ofNat n).toNat = n := UInt16.toNat_ofNat_of_lt hnumeric.1
      cases hread
      rw [hword]
      exact ⟨Raw.natural_eq_ok.mp hn, hnumeric.2⟩
    · cases hread
  · rintro ⟨hnatural, hnumeric⟩
    have hroom : number.toNat < capacity 16 := number.toNat_lt
    refine bind_eq_ok.mpr ⟨number.toNat, Raw.natural_eq_ok.mpr hnatural, ?_⟩
    rw [UInt16.ofNat_toNat, decide_eq_true hroom, hnumeric]
    rfl

end Value

/-! ### From codes to integers -/

namespace Country

/-- Where a country number arrives that goes on through integers of the given widths. -/
def arrival (number : UInt16) (widths : List Width) : Value :=
  widths.getLast?.elim (.countryNumber number) fun width => .uint width (.ofNat 128 number.toNat)

theorem lt_width {code : String} {number : UInt16} (h : numeric? code = some number)
    (width : Width) : (BitVec.ofNat 128 number.toNat).toNat < capacity width.bits := by
  have hten : 10 ≤ width.bits := by cases width <;> decide
  have hlt := Value.countryNumber_lt (numeric?_eq_some_iff.mp h)
  exact Word.toNat_ofNat_lt (Nat.lt_of_lt_of_le hlt (capacity_le hten))

theorem isChain_widths {number : Word} (hroom : ∀ width : Width, number.toNat < capacity width.bits)
    {start : Value} (hstart : ∀ width, Value.Edge start (.uint width number))
    (widths : List Width) :
    (start :: widths.map fun width => Value.uint width number).IsChain Value.Edge := by
  induction widths generalizing start with
  | nil => exact .singleton start
  | cons width rest ih =>
    -- The rest starts at this width, and from there all widths are open again.
    exact .cons_cons (hstart width) (ih fun next => .uintUint (hroom next))

/-- **A code of the table is converted to its number and on to integers**, whatever their widths. -/
theorem ofChain_widths {code : String} {number : UInt16} (h : numeric? code = some number)
    (widths : List Width) :
    Value.ofChain (.string code)
        (Node.walk .iso3166Alpha2 (.iso3166Numeric :: widths.map Node.uint))
      = .ok (arrival number widths) := by
  have hread : Value.ofJson (Value.countryCode code).node (.string code)
      = .ok (.countryCode code) := Value.ofJson_iso3166Alpha2.mpr ⟨code, number, rfl, h, rfl⟩
  have hroom := lt_width h
  have hedges := isChain_widths hroom (fun width => .numberUint (hroom width)) widths
  have hchain := Value.ofChain_walk hread (.cons_cons (.codeNumber h) hedges)
  have hnodes : (widths.map fun width => Value.uint width (.ofNat 128 number.toNat)).map Value.node
      = widths.map Node.uint := by
    rw [List.map_map]
    rfl
  have hlast : (widths.map fun width => Value.uint width (.ofNat 128 number.toNat)).getLast?.getD
      (.countryNumber number) = arrival number widths := by
    rw [List.getLast?_map, arrival]
    cases widths.getLast? <;> rfl
  rwa [List.map_cons, hnodes, hlast] at hchain

/-- **Halving agrees with a scan, and what it finds is converted.**  For every text the look-up
gives what a scan of the table gives: a number exactly if the table has an entry of the two, and
nothing exactly if no entry has that code.  The order in which it compares texts is that of their
bytes.  The numbers that it gives are the country numbers.  So every code that is read is one of
the table, and it is converted to its number and on to integers of any width, one after another.
The country number is read from all raw values that denote it, its JSON form among them. -/
theorem lookup_agrees_with_scan :
    (∀ code, numeric? code = codes.toList.lookup code) ∧
    (∀ code number, numeric? code = some number ↔ (code, number) ∈ codes) ∧
    (∀ code, numeric? code = none ↔ ∀ entry ∈ codes, entry.1 ≠ code) ∧
    (∀ code, ∀ entry ∈ codes,
      entry.1 < code ↔ Text.Utf8.encode entry.1 < Text.Utf8.encode code) ∧
    (∀ number, isNumeric number = true ↔ ∃ code, numeric? code = some number) ∧
    ∀ raw value, Value.ofJson .iso3166Alpha2 raw = .ok value →
      ∃ code number, raw = .string code ∧ value = .countryCode code ∧
        numeric? code = some number ∧
        (∀ widths : List Width,
          Value.ofChain raw (Node.walk .iso3166Alpha2 (.iso3166Numeric :: widths.map Node.uint))
            = .ok (arrival number widths)) ∧
        (∀ written, Value.ofJson .iso3166Numeric written = .ok (.countryNumber number) ↔
          Raw.natural? written = some number.toNat) ∧
        Value.ofJson .iso3166Numeric (Value.countryNumber number).toJson
          = .ok (.countryNumber number) := by
  refine ⟨search_eq_lookup ordered_codes, fun code number => numeric?_eq_some_iff,
    fun code => numeric?_eq_none_iff, fun code entry _ => Text.Utf8.encode_lt_iff.symm,
    fun number => isNumeric_iff_numeric?, fun raw value hread => ?_⟩
  obtain ⟨code, number, rfl, hnumber, rfl⟩ := Value.ofJson_iso3166Alpha2.mp hread
  have hnumeric : isNumeric number = true := isNumeric_iff_numeric?.mpr ⟨code, hnumber⟩
  have hwell : (Value.countryNumber number).WellFormed := isNumeric_iff.mp hnumeric
  refine ⟨code, number, rfl, rfl, hnumber, ofChain_widths hnumber, fun written => ?_,
    hwell.reads_back⟩
  rw [Value.ofJson_iso3166Numeric, and_iff_left hnumeric]

/-- The number of Brazil, through sixty-four bits into sixteen. -/
theorem lookup_agrees_with_scan_brazil :
    Value.ofJson .iso3166Alpha2 (.string "BR") = .ok (.countryCode "BR") ∧
      Value.ofChain (.string "BR")
          [⟨"iso3166alpha2", "iso3166numeric"⟩, ⟨"iso3166numeric", "uint64"⟩, ⟨"uint64", "uint16"⟩]
        = .ok (.uint .w16 76) ∧
      Value.ofJson .iso3166Numeric (.string "+076") = .ok (.countryNumber 76) ∧
      Country.numeric? "br" = none := by
  obtain ⟨-, hfound, hmissing, -, -, hchain⟩ := lookup_agrees_with_scan
  have hnumber : numeric? "BR" = some 76 := (hfound "BR" 76).mpr (by decide +kernel)
  have hread : Value.ofJson .iso3166Alpha2 (.string "BR") = .ok (.countryCode "BR") :=
    Value.ofJson_iso3166Alpha2.mpr ⟨"BR", 76, rfl, hnumber, rfl⟩
  obtain ⟨code, number, hcode, -, hn, hwidths, hwritten, -⟩ := hchain _ _ hread
  cases hcode
  obtain rfl : number = 76 := Option.some.inj (hn.symm.trans hnumber)
  refine ⟨hread, hwidths [.w64, .w16], (hwritten _).mpr (by decide +kernel), ?_⟩
  exact (hmissing "br").mpr (by decide +kernel)

end Country

end Circuitry
