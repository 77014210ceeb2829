import MyappsCommon.Front.Auth
import MyappsCommon.Front.Main

/-! # The compatibility gates of the front protocols

`auth` and `main` decide the product order on every pair.  `core` compares a class
constant in the place of the peer's `authRequest_`; it is monotone all the same,
and exact where that component does not matter.
-/

namespace MyappsCommon.Front

open MyappsCommon.Lib

/-- The gates of the three protocols are lawful on a triple of pairs exactly when, on
the `core` pair, some other component already refuses or the constant and the peer's
`authRequest_` compare alike with the local one. -/
theorem gates_lawful_iff (peerCore localCore : Core.Version) (peerAuth localAuth : Auth.Version)
    (peerMain localMain : Main.Version) :
    (Gate.LawfulAt Core.Version.component Core.Version.le peerCore localCore ∧
      Gate.LawfulAt InitVersion.component Auth.Version.le peerAuth localAuth ∧
      Gate.LawfulAt InitVersion.component Main.Version.le peerMain localMain) ↔
    (peerCore.RestAtMost localCore →
      (Core.Version.authRequest ≤ localCore.authRequest_ ↔
        peerCore.authRequest_ ≤ localCore.authRequest_)) := by
  have authLawful := Gate.lawfulAt_of_exact InitVersion.exactAt peerAuth localAuth
  have mainLawful := Gate.lawfulAt_of_exact InitVersion.exactAt peerMain localMain
  -- the constant leaves the gate monotone, so that only exactness can fail
  have coreLawful := Gate.lawfulAt_iff_exactAt (Core.Version.le_monotone peerCore localCore)
  rw [coreLawful, Core.Version.exactAt_iff]
  exact ⟨fun lawful => lawful.1, fun exact => ⟨exact, authLawful, mainLawful⟩⟩

/-- A peer that asks for a newer `auth_request` passes the gate of today's server. -/
theorem core_gate_accepts_newer :
    Core.Version.le { authRequest_ := 2 } {} = true ∧
      ¬ Gate.LawfulAt Core.Version.component Core.Version.le { authRequest_ := 2 } {} := by
  refine ⟨by decide, fun lawful => ?_⟩
  have refused := lawful.refuses ⟨.authRequest, by decide⟩
  exact absurd refused (by decide)

end MyappsCommon.Front
