import MyappsCommon.Front.Core
import MyappsCommon.Utility.Adds

/-! # The messages of `front::core` -/

namespace MyappsCommon.Front.Core

open MyappsCommon.Lib MyappsCommon.Lib.BinaryArchive MyappsCommon.Reflection MyappsCommon.Utility

variable {σ : Type}

structure AuthRequest where
  pass_ : Text := Sized.empty
  user_ : Text := Sized.empty
  captchaText_ : Text := Sized.empty
  captchaToken_ : Text := Sized.empty

def AuthRequest.adds (basics : Basics σ) : Adds σ AuthRequest :=
  .members
    ⟨fun this => (this.pass_, this.user_, this.captchaText_, this.captchaToken_, ()),
      fun (pass_, user_, captchaText_, captchaToken_, ()) =>
        ⟨pass_, user_, captchaText_, captchaToken_⟩,
      fun _ => rfl, fun _ => rfl⟩ <|
  .add 1 "pass" basics.text <|
  .add 2 "user" basics.text <|
  .add 3 "captcha_text" basics.text <|
  .add 4 "captcha_token" basics.text .none

structure AuthResponse where
  error_ : UInt32 := -1
  message_ : Text := Sized.empty

def AuthResponse.adds (basics : Basics σ) : Adds σ AuthResponse :=
  .members
    ⟨fun this => (this.error_, this.message_, ()),
      fun (error_, message_, ()) => ⟨error_, message_⟩,
      fun _ => rfl, fun _ => rfl⟩ <|
  .add 1 "error" basics.u32 <|
  .add 2 "message" basics.text .none

structure Response where
  error_ : UInt32 := -1
  message_ : Text := Sized.empty

def Response.adds (basics : Basics σ) : Adds σ Response :=
  .members
    ⟨fun this => (this.error_, this.message_, ()),
      fun (error_, message_, ()) => ⟨error_, message_⟩,
      fun _ => rfl, fun _ => rfl⟩ <|
  .add 1 "error" basics.u32 <|
  .add 2 "message" basics.text .none

end MyappsCommon.Front.Core
