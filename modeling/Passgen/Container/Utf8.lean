import Mathlib.Tactic.Common
import Passgen.Container.Hashmap
import Passgen.Parser.Run
import Passgen.Util.Siphash
import Passgen.Wordlist.Wordlist

/-!
# Container/Utf8 — keys of bytes

    key ─ strlen ▸ bytes up to the zero ─ SipHash ▸ first position
                                         └ SipHash, with the other key ▸ second position

The maps of wordlists and presets have strings for keys: two of them are the same key when they are
equal up to their zeros, and what is behind is neither compared nor hashed.
-/

namespace Passgen

/-- `utf8_keys`, the keys of the hash function. -/
def utf8Keys (first : Bool) : List UInt8 :=
  ascii (if first then "someverylongpass" else "myotherverylongk")

/-- `utf8_hash`, on a machine whose words have their lowest byte first. -/
def utf8Hash (key : List UInt8) (first : Bool) : ℕ :=
  (u8To64Le ((siphash (cString key) (utf8Keys first) 8).getD [])).toNat

/-- `utf8_equal`: `strcmp`. -/
def utf8Equal (lhs rhs : List UInt8) : Bool := cString lhs == cString rhs

theorem utf8Equal_iff {lhs rhs : List UInt8} :
    utf8Equal lhs rhs = true ↔ cString lhs = cString rhs := beq_iff_eq

/-- `passgen_hashmap_context_utf8`. -/
def utf8Context : HashmapContext (List UInt8) where
  hash := utf8Hash
  equal := utf8Equal
  equivalence := by
    simp only [utf8Equal_iff]
    exact ⟨fun _ => rfl, Eq.symm, Eq.trans⟩
  hash_eq h first := by rw [utf8Hash, utf8Equal_iff.mp h, utf8Hash]

end Passgen
