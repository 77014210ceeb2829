import MyappsCommon.Front.Auth
import MyappsCommon.Front.CoreMessages

/-! # The messages of `front::auth` -/

namespace MyappsCommon.Front.Auth

open MyappsCommon.Lib MyappsCommon.Lib.BinaryArchive MyappsCommon.Reflection MyappsCommon.Utility

variable {σ : Type}

structure CaptchaRequest where

def CaptchaRequest.adds : Adds σ CaptchaRequest :=
  .members (Format.single ⟨⟩ fun _ => rfl) .none

structure CaptchaResponse where
  captchaToken_ : Text := Sized.empty
  captchaImage_ : Sized UInt8 := Sized.empty
  captchaAudio_ : Sized UInt8 := Sized.empty

def CaptchaResponse.adds (basics : Basics σ) : Adds σ CaptchaResponse :=
  .members
    ⟨fun this => (this.captchaToken_, this.captchaImage_, this.captchaAudio_, ()),
      fun (captchaToken_, captchaImage_, captchaAudio_, ()) =>
        ⟨captchaToken_, captchaImage_, captchaAudio_⟩,
      fun _ => rfl, fun _ => rfl⟩ <|
  .add 1 "captcha_token" basics.text <|
  .add 2 "captcha_image" (basics.containerAtMost (1024 * 1024) basics.u8) <|
  .add 3 "captcha_audio" (basics.container basics.u8) .none

structure CreateRequest where
  pass_ : Text := Sized.empty
  user_ : Text := Sized.empty
  email_ : Text := Sized.empty
  captchaText_ : Text := Sized.empty
  captchaToken_ : Text := Sized.empty

def CreateRequest.adds (basics : Basics σ) : Adds σ CreateRequest :=
  .members
    ⟨fun this => (this.pass_, this.user_, this.email_, this.captchaText_, this.captchaToken_, ()),
      fun (pass_, user_, email_, captchaText_, captchaToken_, ()) =>
        ⟨pass_, user_, email_, captchaText_, captchaToken_⟩,
      fun _ => rfl, fun _ => rfl⟩ <|
  .add 1 "pass" basics.text <|
  .add 2 "user" basics.text <|
  .add 3 "email" basics.text <|
  .add 4 "captcha_text" basics.text <|
  .add 5 "captcha_token" basics.text .none

structure FetchRequest where

def FetchRequest.adds : Adds σ FetchRequest :=
  .members (Format.single ⟨⟩ fun _ => rfl) .none

structure FetchResponse where
  user_ : Text := Sized.empty
  email_ : Text := Sized.empty

def FetchResponse.adds (basics : Basics σ) : Adds σ FetchResponse :=
  .members
    ⟨fun this => (this.user_, this.email_, ()),
      fun (user_, email_, ()) => ⟨user_, email_⟩,
      fun _ => rfl, fun _ => rfl⟩ <|
  .add 1 "user" basics.text <|
  .add 2 "email" basics.text .none

structure AmendRequest where
  ticket_ : Text := Sized.empty
  newPass_ : Text := Sized.empty
  newUser_ : Text := Sized.empty
  newEmail_ : Text := Sized.empty
  pass_ : Text := Sized.empty
  captchaText_ : Text := Sized.empty
  captchaToken_ : Text := Sized.empty

def AmendRequest.adds (basics : Basics σ) : Adds σ AmendRequest :=
  .members
    ⟨fun this => (this.ticket_, this.newPass_, this.newUser_, this.newEmail_, this.pass_,
        this.captchaText_, this.captchaToken_, ()),
      fun (ticket_, newPass_, newUser_, newEmail_, pass_, captchaText_, captchaToken_, ()) =>
        ⟨ticket_, newPass_, newUser_, newEmail_, pass_, captchaText_, captchaToken_⟩,
      fun _ => rfl, fun _ => rfl⟩ <|
  .add 1 "ticket" basics.text <|
  .add 2 "new_pass" basics.text <|
  .add 3 "new_user" basics.text <|
  .add 4 "new_email" basics.text <|
  .add 5 "pass" basics.text <|
  .add 6 "captcha_text" basics.text <|
  .add 7 "captcha_token" basics.text .none

structure DeleteRequest where
  ticket_ : Text := Sized.empty
  pass_ : Text := Sized.empty
  reason_ : Text := Sized.empty

def DeleteRequest.adds (basics : Basics σ) : Adds σ DeleteRequest :=
  .members
    ⟨fun this => (this.ticket_, this.pass_, this.reason_, ()),
      fun (ticket_, pass_, reason_, ()) => ⟨ticket_, pass_, reason_⟩,
      fun _ => rfl, fun _ => rfl⟩ <|
  .add 1 "ticket" basics.text <|
  .add 2 "pass" basics.text <|
  .add 3 "reason" basics.text .none

structure ValidateRequest where
  ticket_ : Text := Sized.empty
  text_ : Text := Sized.empty
  captchaText_ : Text := Sized.empty
  captchaToken_ : Text := Sized.empty

def ValidateRequest.adds (basics : Basics σ) : Adds σ ValidateRequest :=
  .members
    ⟨fun this => (this.ticket_, this.text_, this.captchaText_, this.captchaToken_, ()),
      fun (ticket_, text_, captchaText_, captchaToken_, ()) =>
        ⟨ticket_, text_, captchaText_, captchaToken_⟩,
      fun _ => rfl, fun _ => rfl⟩ <|
  .add 1 "ticket" basics.text <|
  .add 2 "text" basics.text <|
  .add 3 "captcha_text" basics.text <|
  .add 4 "captcha_token" basics.text .none

structure ResetRequest where
  login_ : Text := Sized.empty
  pass_ : Text := Sized.empty
  captchaText_ : Text := Sized.empty
  captchaToken_ : Text := Sized.empty

def ResetRequest.adds (basics : Basics σ) : Adds σ ResetRequest :=
  .members
    ⟨fun this => (this.login_, this.pass_, this.captchaText_, this.captchaToken_, ()),
      fun (login_, pass_, captchaText_, captchaToken_, ()) =>
        ⟨login_, pass_, captchaText_, captchaToken_⟩,
      fun _ => rfl, fun _ => rfl⟩ <|
  .add 1 "login" basics.text <|
  .add 2 "pass" basics.text <|
  .add 3 "captcha_text" basics.text <|
  .add 4 "captcha_token" basics.text .none

end MyappsCommon.Front.Auth
