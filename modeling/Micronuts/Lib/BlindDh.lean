import Mathlib.Algebra.Module.Basic
import Mathlib.Tactic.Module

/-!
# Blind Diffie-Hellman signatures over a module

A signature on the point `Y` under the key `a` is `a • Y`. The signer sees `Y` only blinded, and proves to whoever has the
public key `a • G` that the blinded signature has the same factor: a nonce `ρ` commits to `ρ • G` and `ρ • B`, and the
response to the challenge `e` is `ρ + e * a`. The challenge is any scalar; what it is a hash of is not looked at here.
-/

namespace BlindDh
variable {R M : Type*} [CommRing R] [AddCommGroup M] [Module R M]

def blind (G Y : M) (r : R) : M := Y + r • G

def unblind (C' K : M) (r : R) : M := C' - r • K

def reblind (C K : M) (r : R) : M := C + r • K

def response (a e ρ : R) : R := ρ + e * a

/-- The commitment to the nonce under `P` that a verifier finds from the response, where `Q` is claimed to be `a • P`. -/
def commitment (P Q : M) (e s : R) : M := s • P - e • Q

/-- Under the right public key the blinding comes off. -/
theorem unblind_blind (G Y : M) (a r : R) : unblind (a • blind G Y r) (a • G) r = a • Y := by
  unfold unblind blind
  module

theorem reblind_unblind (C' K : M) (r : R) : reblind (unblind C' K r) K r = C' := by
  unfold reblind unblind
  module

/-- The honest response opens the commitment to the nonce. -/
theorem commitment_response (P : M) (a e ρ : R) : commitment P (a • P) e (response a e ρ) = ρ • P := by
  unfold commitment response
  module

end BlindDh
