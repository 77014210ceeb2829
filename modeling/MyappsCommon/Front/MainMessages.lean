import MyappsCommon.Front.CoreMessages
import MyappsCommon.Front.Main

/-! # The messages of `front::main` -/

namespace MyappsCommon.Front.Main

open MyappsCommon.Lib MyappsCommon.Lib.BinaryArchive MyappsCommon.Reflection MyappsCommon.Utility

variable {σ : Type}

structure ListOSesRequest where

def ListOSesRequest.adds : Adds σ ListOSesRequest :=
  .members (Format.single ⟨⟩ fun _ => rfl) .none

structure ListOSesResponse where
  error_ : UInt32 := -1
  message_ : Text := Sized.empty
  osvec_ : Sized Text := Sized.empty

def ListOSesResponse.adds (basics : Basics σ) : Adds σ ListOSesResponse :=
  .members
    ⟨fun this => (this.error_, this.message_, this.osvec_, ()),
      fun (error_, message_, osvec_, ()) => ⟨error_, message_, osvec_⟩,
      fun _ => rfl, fun _ => rfl⟩ <|
  .add 1 "error" basics.u32 <|
  .add 2 "message" basics.text <|
  .add 3 "osvec" (strings basics) .none

structure ListAppsRequest where
  choice_ : UInt8

def ListAppsRequest.adds (basics : Basics σ) : Adds σ ListAppsRequest :=
  .members
    ⟨fun this => (this.choice_, ()),
      fun (choice_, ()) => ⟨choice_⟩,
      fun _ => rfl, fun _ => rfl⟩ <|
  .add 1 "choice" basics.u8 .none

structure ListAppsResponse where
  error_ : UInt32 := -1
  message_ : Text := Sized.empty
  appVec_ : Sized ApplicationListItem := Sized.empty

def ListAppsResponse.adds (basics : Basics σ) : Adds σ ListAppsResponse :=
  .members
    ⟨fun this => (this.error_, this.message_, this.appVec_, ()),
      fun (error_, message_, appVec_, ()) => ⟨error_, message_, appVec_⟩,
      fun _ => rfl, fun _ => rfl⟩ <|
  .add 1 "error" basics.u32 <|
  .add 2 "message" basics.text <|
  .add 3 "app_vec" (basics.container (ApplicationListItem.adds basics)) .none

structure FetchBuildUpdatesRequest where
  lang_ : Text := Sized.empty
  osId_ : Text := Sized.empty
  appIdVec_ : Sized StringPair := Sized.empty

def FetchBuildUpdatesRequest.adds (basics : Basics σ) : Adds σ FetchBuildUpdatesRequest :=
  .members
    ⟨fun this => (this.lang_, this.osId_, this.appIdVec_, ()),
      fun (lang_, osId_, appIdVec_, ()) => ⟨lang_, osId_, appIdVec_⟩,
      fun _ => rfl, fun _ => rfl⟩ <|
  .add 1 "lang" basics.text <|
  .add 2 "os_id" basics.text <|
  .add 3 "app_id_vec" (textPairs basics) .none

structure FetchBuildUpdatesResponse where
  error_ : UInt32 := -1
  message_ : Text := Sized.empty
  appVec_ : Sized StringPair := Sized.empty

def FetchBuildUpdatesResponse.adds (basics : Basics σ) : Adds σ FetchBuildUpdatesResponse :=
  .members
    ⟨fun this => (this.error_, this.message_, this.appVec_, ()),
      fun (error_, message_, appVec_, ()) => ⟨error_, message_, appVec_⟩,
      fun _ => rfl, fun _ => rfl⟩ <|
  .add 1 "error" basics.u32 <|
  .add 2 "message" basics.text <|
  .add 3 "app_vec" (textPairs basics) .none

structure ListStoreRequest where
  shardId_ : UInt32 := -1
  storageId_ : Text := Sized.empty
  path_ : Text := Sized.empty

def ListStoreRequest.adds (basics : Basics σ) : Adds σ ListStoreRequest :=
  .members
    ⟨fun this => (this.shardId_, this.storageId_, this.path_, ()),
      fun (shardId_, storageId_, path_, ()) => ⟨shardId_, storageId_, path_⟩,
      fun _ => rfl, fun _ => rfl⟩ <|
  .add 1 "shard_id" basics.u32 <|
  .add 2 "storage_id" basics.text <|
  .add 2 "path" basics.text .none

structure ListStoreResponse where
  error_ : UInt32 := -1
  message_ : Text := Sized.empty
  nodeDq_ : Sized ListStoreNode := Sized.empty
  compressChunkCapacity_ : UInt32 := 0
  compressAlgorithmType_ : UInt8 := 0

def ListStoreResponse.adds (basics : Basics σ) : Adds σ ListStoreResponse :=
  .members
    ⟨fun this => (this.error_, this.message_, this.nodeDq_, this.compressChunkCapacity_,
        this.compressAlgorithmType_, ()),
      fun (error_, message_, nodeDq_, compressChunkCapacity_, compressAlgorithmType_, ()) =>
        ⟨error_, message_, nodeDq_, compressChunkCapacity_, compressAlgorithmType_⟩,
      fun _ => rfl, fun _ => rfl⟩ <|
  .add 1 "error" basics.u32 <|
  .add 2 "message" basics.text <|
  .add 3 "node_dq" (basics.container (ListStoreNode.adds basics)) <|
  .add 4 "compress_chunk_capacity" basics.u32 <|
  .add 5 "compress_algorithm_type" basics.u8 .none

structure FetchStoreRequest where
  shardId_ : UInt32 := -1
  storageId_ : Text := Sized.empty
  path_ : Text := Sized.empty
  chunkIndex_ : UInt32 := 0
  chunkOffset_ : UInt32 := 0

def FetchStoreRequest.adds (basics : Basics σ) : Adds σ FetchStoreRequest :=
  .members
    ⟨fun this => (this.shardId_, this.storageId_, this.path_, this.chunkIndex_, this.chunkOffset_,
        ()),
      fun (shardId_, storageId_, path_, chunkIndex_, chunkOffset_, ()) =>
        ⟨shardId_, storageId_, path_, chunkIndex_, chunkOffset_⟩,
      fun _ => rfl, fun _ => rfl⟩ <|
  .add 1 "shard_id" basics.u32 <|
  .add 2 "storage_id" basics.text <|
  .add 3 "path" basics.text <|
  .add 4 "chunk_index" basics.u32 <|
  .add 5 "chunk_offset" basics.u32 .none

structure FetchStoreResponse where
  error_ : UInt32 := -1
  message_ : Text := Sized.empty
  ioss_ : List UInt8 := []
  chunk_ : StorageFetchChunk := {}

def FetchStoreResponse.adds (basics : Basics σ) : Adds σ FetchStoreResponse :=
  .members
    ⟨fun this => (this.error_, this.message_, this.chunk_, this.ioss_, ()),
      fun (error_, message_, chunk_, ioss_, ()) => ⟨error_, message_, ioss_, chunk_⟩,
      fun _ => rfl, fun _ => rfl⟩ <|
  .add 1 "error" basics.u32 <|
  .add 2 "message" basics.text <|
  .add 5 "chunk" (StorageFetchChunk.adds basics) <|
  .add 4 "stream" basics.stream .none

structure FetchAppRequest where
  applicationId_ : Text := Sized.empty
  osId_ : Text := Sized.empty

def FetchAppRequest.adds (basics : Basics σ) : Adds σ FetchAppRequest :=
  .members
    ⟨fun this => (this.applicationId_, this.osId_, ()),
      fun (applicationId_, osId_, ()) => ⟨applicationId_, osId_⟩,
      fun _ => rfl, fun _ => rfl⟩ <|
  .add 1 "application_id" basics.text <|
  .add 2 "os_id" basics.text .none

structure ChangeAppItemStateRequest where
  applicationId_ : Text := Sized.empty
  osId_ : Text := Sized.empty
  item_ : AppItemEntry := {}
  newState_ : UInt8 := 0

def ChangeAppItemStateRequest.adds (basics : Basics σ) : Adds σ ChangeAppItemStateRequest :=
  .members
    ⟨fun this => (this.applicationId_, this.osId_, this.item_, this.newState_, ()),
      fun (applicationId_, osId_, item_, newState_, ()) =>
        ⟨applicationId_, osId_, item_, newState_⟩,
      fun _ => rfl, fun _ => rfl⟩ <|
  .add 1 "application_id" basics.text <|
  .add 2 "os_id" basics.text <|
  .add 3 "item" (AppItemEntry.adds basics) <|
  .add 4 "new_state" basics.u8 .none

structure FetchAppResponse where
  error_ : UInt32 := -1
  message_ : Text := Sized.empty
  application_ : Application := {}
  itemVec_ : Sized AppItemEntry := Sized.empty

def FetchAppResponse.adds (basics : Basics σ) : Adds σ FetchAppResponse :=
  .members
    ⟨fun this => (this.error_, this.message_, this.application_, this.itemVec_, ()),
      fun (error_, message_, application_, itemVec_, ()) =>
        ⟨error_, message_, application_, itemVec_⟩,
      fun _ => rfl, fun _ => rfl⟩ <|
  .add 1 "error" basics.u32 <|
  .add 2 "message" basics.text <|
  .add 3 "application" (Application.adds basics) <|
  .add 4 "item_vec" (basics.container (AppItemEntry.adds basics)) .none

structure FetchBuildRequest where
  applicationId_ : Text := Sized.empty
  buildId_ : Text := Sized.empty

def FetchBuildRequest.adds (basics : Basics σ) : Adds σ FetchBuildRequest :=
  .members
    ⟨fun this => (this.applicationId_, this.buildId_, ()),
      fun (applicationId_, buildId_, ()) => ⟨applicationId_, buildId_⟩,
      fun _ => rfl, fun _ => rfl⟩ <|
  .add 1 "application_id" basics.text <|
  .add 2 "build_id" basics.text .none

structure FetchBuildResponse where
  error_ : UInt32 := -1
  shardId_ : UInt32 := -1
  message_ : Text := Sized.empty
  storageId_ : Text := Sized.empty
  imageBlob_ : Sized UInt8 := Sized.empty
  build_ : Build := {}

def FetchBuildResponse.adds (basics : Basics σ) : Adds σ FetchBuildResponse :=
  .members
    ⟨fun this => (this.error_, this.message_, this.storageId_, this.shardId_, this.imageBlob_,
        this.build_, ()),
      fun (error_, message_, storageId_, shardId_, imageBlob_, build_, ()) =>
        ⟨error_, shardId_, message_, storageId_, imageBlob_, build_⟩,
      fun _ => rfl, fun _ => rfl⟩ <|
  .add 1 "error" basics.u32 <|
  .add 2 "message" basics.text <|
  .add 3 "storage_id" basics.text <|
  .add 4 "shard_id" basics.u32 <|
  .add 5 "image_blob" (basics.containerAtMost (1024 * 1024) basics.u8) <|
  .add 6 "build" (Build.adds basics) .none

structure FetchBuildConfigurationRequest where
  applicationId_ : Text := Sized.empty
  buildId_ : Text := Sized.empty
  lang_ : Text := Sized.empty
  osId_ : Text := Sized.empty
  fetchOptions_ : Build.FetchOptionBitsetT := 0
  propertyVec_ : Sized Text := Sized.empty

def FetchBuildConfigurationRequest.adds (basics : Basics σ) :
    Adds σ FetchBuildConfigurationRequest :=
  .members
    ⟨fun this => (this.applicationId_, this.buildId_, this.lang_, this.osId_, this.fetchOptions_,
        this.propertyVec_, ()),
      fun (applicationId_, buildId_, lang_, osId_, fetchOptions_, propertyVec_, ()) =>
        ⟨applicationId_, buildId_, lang_, osId_, fetchOptions_, propertyVec_⟩,
      fun _ => rfl, fun _ => rfl⟩ <|
  .add 1 "application_id" basics.text <|
  .add 2 "build_id" basics.text <|
  .add 3 "lang" basics.text <|
  .add 4 "os_id" basics.text <|
  .add 5 "fetch_options" (basics.bitset Build.optionsCount) <|
  .add 6 "property_vec" (strings basics) .none

structure FetchBuildConfigurationResponse where
  error_ : UInt32 := -1
  message_ : Text := Sized.empty
  appUnique_ : Text := Sized.empty
  buildUnique_ : Text := Sized.empty
  buildStorageId_ : Text := Sized.empty
  mediaStorageId_ : Text := Sized.empty
  buildShardId_ : UInt32 := 0
  mediaShardId_ : UInt32 := 0
  configuration_ : Build.Configuration := {}
  imageBlob_ : Sized UInt8 := Sized.empty

def FetchBuildConfigurationResponse.adds (basics : Basics σ) :
    Adds σ FetchBuildConfigurationResponse :=
  .members
    ⟨fun this => (this.error_, this.message_, this.appUnique_, this.buildUnique_,
        this.buildStorageId_, this.mediaStorageId_, this.buildShardId_, this.mediaShardId_,
        this.configuration_, this.imageBlob_, ()),
      fun (error_, message_, appUnique_, buildUnique_, buildStorageId_, mediaStorageId_,
          buildShardId_, mediaShardId_, configuration_, imageBlob_, ()) =>
        ⟨error_, message_, appUnique_, buildUnique_, buildStorageId_, mediaStorageId_,
          buildShardId_, mediaShardId_, configuration_, imageBlob_⟩,
      fun _ => rfl, fun _ => rfl⟩ <|
  .add 1 "error" basics.u32 <|
  .add 2 "message" basics.text <|
  .add 3 "app_unique" basics.text <|
  .add 4 "build_unique" basics.text <|
  .add 5 "build_storage_id" basics.text <|
  .add 6 "media_storage_id" basics.text <|
  .add 7 "build_shard_id" basics.u32 <|
  .add 8 "media_shard_id" basics.u32 <|
  .add 9 "configuration" (Build.Configuration.adds basics) <|
  .add 10 "image_blob" (basics.containerAtMost (1024 * 1024) basics.u8) .none

structure CreateAppRequest where
  application_ : Application := {}

def CreateAppRequest.adds (basics : Basics σ) : Adds σ CreateAppRequest :=
  .members
    ⟨fun this => (this.application_, ()),
      fun (application_, ()) => ⟨application_⟩,
      fun _ => rfl, fun _ => rfl⟩ <|
  .add 1 "application" (Application.adds basics) .none

structure CreateBuildRequest where
  appId_ : Text := Sized.empty
  unique_ : Text := Sized.empty
  size_ : UInt64 := 0
  shaSum_ : Text := Sized.empty
  imageBlob_ : Sized UInt8 := Sized.empty
  build_ : Build := {}

def CreateBuildRequest.adds (basics : Basics σ) : Adds σ CreateBuildRequest :=
  .members
    ⟨fun this => (this.appId_, this.unique_, this.size_, this.shaSum_, this.imageBlob_,
        this.build_, ()),
      fun (appId_, unique_, size_, shaSum_, imageBlob_, build_, ()) =>
        ⟨appId_, unique_, size_, shaSum_, imageBlob_, build_⟩,
      fun _ => rfl, fun _ => rfl⟩ <|
  .add 1 "app_id" basics.text <|
  .add 2 "unique" basics.text <|
  .add 3 "size" basics.u64 <|
  .add 4 "sha_sum" basics.text <|
  .add 5 "image_blob" (basics.containerAtMost (1024 * 1024) basics.u8) <|
  .add 6 "build" (Build.adds basics) .none

structure CreateMediaRequest where
  appId_ : Text := Sized.empty
  unique_ : Text := Sized.empty
  size_ : UInt64 := 0
  shaSum_ : Text := Sized.empty

def CreateMediaRequest.adds (basics : Basics σ) : Adds σ CreateMediaRequest :=
  .members
    ⟨fun this => (this.appId_, this.unique_, this.size_, this.shaSum_, ()),
      fun (appId_, unique_, size_, shaSum_, ()) => ⟨appId_, unique_, size_, shaSum_⟩,
      fun _ => rfl, fun _ => rfl⟩ <|
  .add 1 "app_id" basics.text <|
  .add 2 "unique" basics.text <|
  .add 3 "size" basics.u64 <|
  .add 4 "sha_sum" basics.text .none

/-- What `ifs_` gives where the request is sent is what `oss_` takes where it is received. -/
structure UploadRequest where
  content : List UInt8 := []

def UploadRequest.adds (basics : Basics σ) : Adds σ UploadRequest :=
  .members
    ⟨fun this => (this.content, ()), fun (content, ()) => ⟨content⟩, fun _ => rfl, fun _ => rfl⟩ <|
  .add 1 "stream" (basics.file (100 * 1024) (100 * 1024) rfl) .none

structure AcquireAppRequest where
  appId_ : Text := Sized.empty
  acquire_ : Bool := true

def AcquireAppRequest.adds (basics : Basics σ) : Adds σ AcquireAppRequest :=
  .members
    ⟨fun this => (this.appId_, this.acquire_, ()),
      fun (appId_, acquire_, ()) => ⟨appId_, acquire_⟩,
      fun _ => rfl, fun _ => rfl⟩ <|
  .add 1 "app_id" basics.text <|
  .add 2 "acquire" basics.bool .none

end MyappsCommon.Front.Main
