import AmlCommonlib.AmlLog.LevelCache
import AmlCommonlib.AmlLog.Rotation
import AmlCommonlib.AudioClockSync.ClockTuning
import AmlCommonlib.Binder.DealerRuns
import AmlCommonlib.Binder.ObjectManager
import AmlCommonlib.Binder.PermissionCache
import AmlCommonlib.BootloaderMessage.Checksums
import AmlCommonlib.BootloaderMessage.Nand
import AmlCommonlib.BootloaderMessage.OtaPath
import AmlCommonlib.BootloaderMessage.SlotSuffix
import AmlCommonlib.BootloaderMessage.SuccessfulBoot
import AmlCommonlib.Dbus.DelayRuns
import AmlCommonlib.Dbus.RoundTrip
import AmlCommonlib.Dbus.SyncCalls
import AmlCommonlib.Dbus.TypeInfoRoundTrip
import AmlCommonlib.DeviceProperty.Lookup
import AmlCommonlib.DeviceProperty.OutputBound
import AmlCommonlib.Lib.Units
import AmlCommonlib.PropertyServer.DatabaseErrors
import AmlCommonlib.PropertyServer.Loading
import AmlCommonlib.PropertyServer.Remote
import AmlCommonlib.ServiceManager.BinderIo
import AmlCommonlib.ServiceManager.Client
import AmlCommonlib.ServiceManager.ClientRuns
import AmlCommonlib.ServiceManager.Deliveries
import AmlCommonlib.ServiceManager.Listing
import AmlCommonlib.ServiceManager.Manager
import AmlCommonlib.ServiceManager.Messages
import AmlCommonlib.ServiceManager.ObjectList
import AmlCommonlib.ServiceManager.Parcel
import AmlCommonlib.ServiceManager.ParcelRoundTrip
import AmlCommonlib.ServiceManager.Records
import AmlCommonlib.ServiceManager.Replies
import AmlCommonlib.SocketIpc.Handlers
import AmlCommonlib.SocketIpc.Service
import AmlCommonlib.SocketIpcV2.ClientList
import AmlCommonlib.SocketIpcV2.ClientStream
import AmlCommonlib.SocketIpcV2.Delivery
import AmlCommonlib.SocketIpcV2.Reconnection
import AmlCommonlib.SocketIpcV2.Status
import AmlCommonlib.Ubootenv.Corruption
import AmlCommonlib.Ubootenv.ImageLock
import AmlCommonlib.Ubootenv.InitCount
import AmlCommonlib.Ubootenv.MtdLookup
import AmlCommonlib.Ubootenv.Partition
import AmlCommonlib.Ubootenv.VariableMap
import AmlCommonlib.Unicode.Conversions
import AmlCommonlib.Unicode.RoundTrip
import AmlCommonlib.Utils.AutoShutdown
import AmlCommonlib.Utils.BatteryMonitor
import AmlCommonlib.Utils.KeyFilter
import AmlCommonlib.Utils.KeyQueue
import AmlCommonlib.WpaWifi.Mirror
import AmlCommonlib.WpaWifi.PasswordLookup
import AmlCommonlib.WpaWifi.ScanStatus
