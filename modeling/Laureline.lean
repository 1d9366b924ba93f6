import Laureline.Lib.Machine
import Laureline.Lib.CInt
import Laureline.Lib.Binary64
import Laureline.Timer.Rollover
import Laureline.Timer.MonotonicNow
import Laureline.Timer.PulseCapture
import Laureline.Timer.Sleep
import Laureline.Vtimer.Clock
import Laureline.Vtimer.TimeOfDay
import Laureline.Vtimer.Accuracy
import Laureline.Vtimer.Monotone
import Laureline.Vtimer.Thread
import Laureline.Vtimer.SleepUntil
import Laureline.Vtimer.Stratum
import Laureline.Epoch
import Laureline.Calendar
import Laureline.DayCount
import Laureline.Vtimer.SetTime
import Laureline.Vtimer.Quantisation
import Laureline.Pll.Limit
import Laureline.Util.Parse
import Laureline.Util.Tokens
import Laureline.Gps.Feed
import Laureline.Gps.Ublox
import Laureline.Gps.Frame
import Laureline.Gps.Tsip
import Laureline.Gps.Motorola
import Laureline.Gps.Nmea
import Laureline.Gps.Parser
import Laureline.Gps.ReceivedDate
import Laureline.Gps.Lock
import Laureline.Gps.SharedBuffer
import Laureline.Gps.Recognise
import Laureline.Gps.UbloxAccepts
import Laureline.Gps.TsipEnd
import Laureline.Gps.TsipFields
import Laureline.Gps.NmeaText
import Laureline.Gps.NmeaDateTime
import Laureline.Gps.NmeaChecksum
import Laureline.Gps.NmeaPreference
import Laureline.Gps.Accesses
import Laureline.Gps.NmeaAccesses
import Laureline.Gps.Bounds
import Laureline.Net.NtpServer
import Laureline.Net.Relay
import Laureline.Net.RelayClient
import Laureline.Net.Api
import Laureline.Net.ApiReferences
import Laureline.Net.ApiReturns
import Laureline.Net.Logging
import Laureline.Net.PbufPool
import Laureline.Mac.Transmit
import Laureline.Mac.Abandon
import Laureline.Mac.Housekeeping
import Laureline.Dma.Completions
import Laureline.Eeprom.WritePage
import Laureline.Eeprom.Polling
import Laureline.Eeprom.Config
import Laureline.Cmdline.Editor
import Laureline.Cmdline.RoundTrip
import Laureline.Cmdline.Serial
import Laureline.Boot.Overlay
import Laureline.Boot.Guard
import Laureline.Boot.PowerUps
import Laureline.Boot.HexFile
import Laureline.Boot.HexLine
import Laureline.Boot.Restart
import Laureline.Crypto.Sha1Digest
import Laureline.Crypto.Md5
import Laureline.Net.NtpDigests
import Laureline.Mac.Receive
import Laureline.Serial.Output
import Laureline.Serial.Input
import Laureline.Mmc.Crc7
import Laureline.I2c.Transact
import Laureline.Net.RelayStream
import Laureline.Mmc.Card
import Laureline.Clocks
import Laureline.Gpio
